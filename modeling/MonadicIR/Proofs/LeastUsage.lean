import MonadicIR.Proofs.Usage

namespace MonadicIR

open Component Usage

namespace Usage

variable {usage bound : Usage}

theorem mem_keep_of_marks {α : Type} {items : List α} {flags marks : List Bool}
    (h : Marks marks flags) {a : α} (ha : a ∈ keep items flags) : a ∈ keep items marks := by
  induction h generalizing items with
  | nil => exact ha
  | @cons f g flags marks hf _ ih =>
    cases items with
    | nil => exact ha
    | cons b items =>
      cases f with
      | true =>
        simp only [keep, hf rfl, if_true, List.mem_cons] at ha ⊢
        exact ha.imp_right ih
      | false =>
        have hrest := ih ha
        cases g
        · exact hrest
        · exact .tail _ hrest

theorem Marks.merge {marks flags found : List Bool} (h : Marks marks flags)
    (h' : Marks marks found) : Marks marks (merge flags found) := by
  induction h generalizing found with
  | nil => exact .nil
  | @cons f g flags marks hf _ ih =>
    obtain _ | ⟨hg, hrest⟩ := h'
    refine .cons (fun hor => ?_) (ih hrest)
    exact ((Bool.or_eq_true _ _).mp hor).elim hf hg

/-- Neither table has an entry for the definition, or the second one has all marks of the first. -/
def Below (usage bound : Usage) (d : DefnId) : Prop :=
  (usage[d]? = none ∧ bound[d]? = none) ∨
    ∃ flags marks, usage[d]? = some flags ∧ bound[d]? = some marks ∧ Marks marks flags

theorem Below.narrows {d : DefnId} (h : Below usage bound d) : Narrows usage bound d := by
  intro args a ha
  unfold usedArgs at ha ⊢
  obtain ⟨hnone, hnone'⟩ | ⟨flags, marks, hflags, hmarks, hle⟩ := h
  · rw [hnone] at ha
    rwa [hnone']
  · rw [hflags] at ha
    rw [hmarks]
    have hlen : flags.length = marks.length := hle.length_eq
    refine mem_keep_of_marks ?_ ha
    rw [hlen]
    exact List.rel_append hle (List.forall₂_refl _)

theorem below_map {f : DefnId → List Bool → List Bool}
    (h : ∀ (d : DefnId) flags, usage[d]? = some flags → Marks flags (f d flags)) (d : DefnId) :
    Below (Std.TreeMap.map f usage) usage d := by
  rw [Below, Std.TreeMap.getElem?_map]
  cases hd : usage[d]? with
  | none => exact .inl ⟨rfl, rfl⟩
  | some flags => exact .inr ⟨f d flags, flags, rfl, rfl, h d flags hd⟩

/-- Has the table entries for those of these definitions that take arguments, and no others? -/
def Lists (usage : Usage) (ds : List DefnId) : Prop :=
  ∀ d : DefnId, (usage[d]?).isSome = true ↔ d ∈ ds ∧ d.takesArgs = true

theorem Lists.map {ds : List DefnId} (h : usage.Lists ds) (f : DefnId → List Bool → List Bool) :
    Lists (Std.TreeMap.map f usage) ds := fun d => by
  rw [Std.TreeMap.getElem?_map, Option.isSome_map, h d]

end Usage

namespace Program

variable {p : Program} {usage bound : Usage} {ds : List DefnId}

theorem lists_started (h : usage.Lists ds) (members : List DefnId) :
    Lists (members.foldl p.started usage) (ds ++ members) := fun d => by
  rw [getElem?_foldl_started, List.mem_append]
  split
  · rename_i hd
    simp [hd]
  · rename_i hd
    rw [h d]
    tauto

theorem lists_grown (h : usage.Lists ds) (d : DefnId) : Lists (p.grown usage d) ds := fun e => by
  rw [grown, getElem?_grow, ← h e]
  split
  · rename_i hde
    rw [Option.isSome_map, hde]
  · rfl

theorem settleUsage_keeps {P : Usage → Prop} (hds : ∀ d ∈ ds, p.defines d = true)
    (hgrow : ∀ usage, P usage → ∀ d ∈ ds, P (p.grown usage d)) {fuel : Nat} {usage' : Usage}
    (h : p.settleUsage ds fuel usage = .ok usage') (hP : P usage) : P usage' := by
  have hround (members : List DefnId) (hmembers : ∀ d ∈ members, d ∈ ds) (usage : Usage)
    (hP : P usage) :
      P (members.foldl p.grown usage) := by
    induction members generalizing usage with
    | nil => exact hP
    | cons d members ih =>
      exact ih (fun e he => hmembers e (.tail _ he)) _
        (hgrow usage hP d (hmembers d (.head ..)))
  induction fuel generalizing usage with
  | zero =>
    obtain rfl := Except.ok.inj h
    exact hP
  | succ fuel ih =>
    rw [settleUsage, foldlM_growUsage hds] at h
    obtain ⟨_, hgrown, h⟩ := bind_eq_ok_iff.mp h
    obtain rfl := Except.ok.inj hgrown
    split at h
    · obtain rfl := Except.ok.inj h
      exact hP
    · exact ih h (hround ds (fun _ => id) usage hP)

/-- What holds before the first component, and is kept when members of a component get their entries
and when slots of these are marked, holds in the end. -/
theorem usageOf_keeps {P : List DefnId → Usage → Prop} {cs : List Component}
    (hdef : ∀ d ∈ allMembers cs, p.defines d = true)
    (hstart : ∀ before c after usage, cs = before ++ c :: after → P (allMembers before) usage →
      P (allMembers before ++ c.members) (c.members.foldl p.started usage))
    (hgrow : ∀ before c after usage d, cs = before ++ c :: after → d ∈ c.members →
      P (allMembers before ++ c.members) usage →
      P (allMembers before ++ c.members) (p.grown usage d))
    {before after : List Component} (hcs : cs = before ++ after) {usage' : Usage}
    (h : p.usageOf after usage = .ok usage') (hP : P (allMembers before) usage) :
    P (allMembers cs) usage' := by
  induction after generalizing before usage with
  | nil =>
    obtain rfl := Except.ok.inj h
    rwa [hcs, List.append_nil]
  | cons c after ih =>
    have hmembers : ∀ d ∈ c.members, p.defines d = true := fun d hd =>
      hdef d (List.mem_flatMap.mpr ⟨c, by simp [hcs], hd⟩)
    rw [usageOf, foldlM_startUsage hmembers] at h
    obtain ⟨_, hstarted, h⟩ := bind_eq_ok_iff.mp h
    obtain rfl := Except.ok.inj hstarted
    obtain ⟨settled, hsettled, h⟩ := bind_eq_ok_iff.mp h
    have hall : P (allMembers before ++ c.members) settled :=
      settleUsage_keeps hmembers (fun usage hP d hd => hgrow before c after usage d hcs hd hP)
        hsettled
        (hstart before c after usage hcs hP)
    have hcs' : cs = (before ++ [c]) ++ after := by simp [hcs]
    exact ih hcs' h (by simpa [allMembers] using hall)

/-- What the usage of a program with current components keeps while it is computed. -/
theorem usage_keeps (h : p.Current) (husage : p.usage = .ok usage) {P : List DefnId → Usage → Prop}
    (hempty : P [] {})
    (hstart : ∀ before c after usage, p.components.toList = before ++ c :: after →
      P (allMembers before) usage →
      P (allMembers before ++ c.members) (c.members.foldl p.started usage))
    (hgrow : ∀ before c after usage d, p.components.toList = before ++ c :: after → d ∈ c.members →
      P (allMembers before ++ c.members) usage →
      P (allMembers before ++ c.members) (p.grown usage d)) :
    P (allMembers p.components.toList) usage :=
  usageOf_keeps (fun _ hd => defines_of_callees (h.callees hd).choose_spec) hstart hgrow
    (List.nil_append _).symm husage hempty

theorem usage_lists (h : p.Current) (husage : p.usage = .ok usage) :
    usage.Lists (allMembers p.components.toList) :=
  usage_keeps h husage (P := fun ds usage => usage.Lists ds) (fun d => by simp)
    (fun _ c _ _ _ hlists => lists_started hlists c.members) fun _ _ _ _ d _ _ hlists =>
      lists_grown hlists d

/-- The table has entries for these definitions, which mark no more than the bound does. -/
structure Within (bound : Usage) (ds : List DefnId) (usage : Usage) : Prop where
  lists : usage.Lists ds
  below : ∀ d ∈ ds, usage.Below bound d

theorem Within.started {all members : List DefnId} (h : Within bound ds usage)
    (hbound : p.Accounts bound all) (hlists : bound.Lists all) (hmembers : ∀ d ∈ members, d ∈ all) :
    Within bound (ds ++ members) (members.foldl p.started usage) := by
  have hnew := lists_started (p := p) h.lists members
  refine ⟨hnew, fun d hd => ?_⟩
  rw [Below, getElem?_foldl_started]
  split
  · rename_i hm
    obtain ⟨marks, hmarks⟩ := Option.isSome_iff_exists.mp ((hlists d).mpr ⟨hmembers d hm.1, hm.2⟩)
    refine .inr ⟨_, marks, rfl, hmarks, ?_⟩
    by_cases hentry : p.isEntrypoint d = true
    · rw [hbound.entrypoint d marks hmarks hentry, hentry]
      exact .refl _
    · rw [Bool.not_eq_true] at hentry
      rw [← hbound.sized d marks hmarks, hentry]
      exact List.forall₂_iff_get.mpr ⟨by simp, by simp⟩
  · rename_i hm
    obtain hds | hmem := List.mem_append.mp hd
    · exact h.below d hds
    · -- A top-level has no entry in either table.
      have htop : ¬ d.takesArgs = true := fun htakes => hm ⟨hmem, htakes⟩
      refine .inl ⟨?_, ?_⟩
      · exact Option.not_isSome_iff_eq_none.mp fun hsome => htop ((h.lists d).mp hsome).2
      · exact Option.not_isSome_iff_eq_none.mp fun hsome => htop ((hlists d).mp hsome).2

theorem Within.grown {all : List DefnId} (h : Within bound ds usage) (hbound : p.Accounts bound all)
    {d : DefnId} (hd : d ∈ all) (hrefers : ∀ e, p.Refers d e → e ∈ ds) :
    Within bound ds (p.grown usage d) := by
  refine ⟨lists_grown h.lists d, fun e he => ?_⟩
  rw [Below, Program.grown, getElem?_grow]
  split
  · rename_i hde
    subst hde
    obtain ⟨hnone, hnone'⟩ | ⟨flags, marks, hflags, hmarks, hle⟩ := h.below d he
    · exact .inl ⟨by rw [hnone]; rfl, hnone'⟩
    · have hmono : Marks (p.usedSlots bound d) (p.usedSlots usage d) :=
        usedSlots_mono fun e hde => (h.below e (hrefers e hde)).narrows
      rw [hflags]
      exact .inr ⟨_, marks, rfl, hmarks, hle.merge (hmono.trans (hbound.settled d hd marks hmarks))⟩
  · exact h.below e he

/-- Every table that accounts for all retained definitions has the marks of the usage. -/
theorem usage_least (h : p.Current) (husage : p.usage = .ok usage)
    (hlists : bound.Lists (allMembers p.components.toList))
    (hbound : p.Accounts bound (allMembers p.components.toList)) (d : DefnId)
    (hd : p.Retained d) : usage.Below bound d := by
  have hmem {before after : List Component} {c : Component}
      (hcs : p.components.toList = before ++ c :: after) {d : DefnId} (hd : d ∈ c.members) :
      d ∈ allMembers p.components.toList :=
    List.mem_flatMap.mpr ⟨c, by simp [hcs], hd⟩
  have hwithin : Within bound (allMembers p.components.toList) usage := by
    refine usage_keeps h husage ⟨fun d => by simp, by simp⟩ ?_ ?_
    · exact fun before c after usage hcs hw => hw.started hbound hlists fun d => hmem hcs
    · intro before c after usage d hcs hd hw
      have hdec : Decomposition p p.roots ((before ++ [c]) ++ after) := by
        rw [← List.append_cons, ← hcs]
        exact decomposition_ofRoots h.components
      refine hw.grown hbound (hmem hcs hd) fun e hde => ?_
      simpa [allMembers] using hdec.refers_mem (by simp [allMembers, hd]) hde
  exact hwithin.below d hd

/-- Marks can only be taken away from the usage if something that is used is left without one. -/
theorem usage_eq_of_settled (h : p.Current) (husage : p.usage = .ok usage)
    (haccounts : p.Accounts usage (allMembers p.components.toList))
    {f : DefnId → List Bool → List Bool}
    (hlower : ∀ (d : DefnId) flags, usage[d]? = some flags → Marks flags (f d flags))
    (hentry : ∀ (d : DefnId) flags, usage[d]? = some flags → p.isEntrypoint d = true →
      f d flags = flags)
    (hsettled : ∀ (d : DefnId) flags, usage[d]? = some flags →
      Marks (f d flags) (p.usedSlots (Std.TreeMap.map f usage) d))
    {d : DefnId} {flags : List Bool} (hd : usage[d]? = some flags) : f d flags = flags := by
  have hmap {e : DefnId} {marks : List Bool} (he : (Std.TreeMap.map f usage)[e]? = some marks) :
      ∃ flags, usage[e]? = some flags ∧ f e flags = marks := by
    rwa [Std.TreeMap.getElem?_map, Option.map_eq_some_iff] at he
  have hbound : p.Accounts (Std.TreeMap.map f usage) (allMembers p.components.toList) := by
    refine ⟨fun e marks he => ?_, fun e marks he => ?_, fun e marks he hep => ?_,
      fun e _ marks he => ?_⟩ <;>
      obtain ⟨flags, hflags, rfl⟩ := hmap he
    · exact haccounts.mem e flags hflags
    · rw [← haccounts.sized e flags hflags]
      exact (hlower e flags hflags).length_eq
    · rw [hentry e flags hflags hep, haccounts.entrypoint e flags hflags hep]
    · exact hsettled e flags hflags
  have hbelow := usage_least h husage ((usage_lists h husage).map f) hbound d
    (haccounts.mem d flags hd)
  rw [Below, Std.TreeMap.getElem?_map, hd] at hbelow
  obtain ⟨⟨⟩, -⟩ | ⟨_, _, ⟨⟩, ⟨⟩, hle⟩ := hbelow
  exact hle.antisymm (hlower d flags hd)

theorem usedSlots_eq_of_usage (h : p.Current) (husage : p.usage = .ok usage)
    (haccounts : p.Accounts usage (allMembers p.components.toList)) {d : DefnId}
    (hentry : p.isEntrypoint d = false) {flags : List Bool} (hd : usage[d]? = some flags) :
    p.usedSlots usage d = flags := by
  let found (d : DefnId) (flags : List Bool) : List Bool :=
    if p.isEntrypoint d then flags else p.usedSlots usage d
  have hlower (d : DefnId) (flags : List Bool) (hd : usage[d]? = some flags) :
      Marks flags (found d flags) := by
    by_cases hep : p.isEntrypoint d = true
    · simpa [found, hep] using Marks.refl flags
    · simpa [found, hep] using haccounts.settled d (haccounts.mem d flags hd) flags hd
  -- By what is found, no more is used than by the usage itself.
  have hmono (d : DefnId) : Marks (p.usedSlots usage d)
      (p.usedSlots (Std.TreeMap.map found usage) d) :=
    usedSlots_mono fun e _ => (below_map hlower e).narrows
  have heq : found d flags = flags := by
    refine usage_eq_of_settled h husage haccounts hlower (fun e marks _ hep => if_pos hep) ?_ hd
    intro e marks he
    by_cases hep : p.isEntrypoint e = true
    · simpa [found, hep] using (hmono e).trans (haccounts.settled e (haccounts.mem e marks he) marks
        he)
    · simpa [found, hep] using hmono e
  simpa [found, hentry] using heq

end Program

end MonadicIR
