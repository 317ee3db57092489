import MonadicIR.Optimiser.Unused
import MonadicIR.Proofs.Components

namespace MonadicIR

open Usage List

namespace Usage

def Marks (flags found : List Bool) : Prop := List.Forall₂ (fun f g => f = true → g = true) found
    flags

theorem Marks.refl (flags : List Bool) : Marks flags flags := forall₂_refl _

variable {flags found : List Bool}

theorem Marks.antisymm (h : Marks flags found) (h' : Marks found flags) :
    flags = found := by
  induction h with
  | nil => rfl
  | cons hf _ ih =>
    obtain _ | ⟨hg, hrest⟩ := h'
    rw [ih hrest, Bool.eq_iff_iff.mpr ⟨hg, hf⟩]

theorem Marks.trans {xs ys zs : List Bool} (h : Marks ys xs) (h' : Marks zs ys) : Marks zs xs := by
  induction h generalizing zs with
  | nil => exact h'
  | cons hf _ ih =>
    obtain _ | ⟨hg, hrest⟩ := h'
    exact .cons (hg ∘ hf) (ih hrest)

theorem marks_merge : Marks (merge flags found) flags := by
  fun_induction merge flags found with
  | case1 u us v vs ih => exact .cons (by simp_all) ih
  | case2 us vs => exact .refl us

theorem marks_merge_found (h : found.length = flags.length) :
    Marks (merge flags found) found := by
  induction flags generalizing found with
  | nil =>
    obtain rfl := length_eq_zero_iff.mp h
    exact .nil
  | cons u us ih =>
    cases found with
    | nil => cases h
    | cons v vs => exact .cons (by simp_all) (ih (by simpa using h))

theorem Marks.eq_replicate {n : Nat} {flags : List Bool} (h : Marks flags (replicate n true)) :
    flags = replicate n true := by
  induction n generalizing flags with
  | zero =>
    cases h
    rfl
  | succ n ih =>
    obtain _ | ⟨hg, hrest⟩ := h
    rw [hg rfl, ih hrest, replicate_succ]

theorem Marks.count_false (h : Marks flags found) :
    flags.count false ≤ found.count false ∧
      (flags ≠ found → flags.count false < found.count false) := by
  induction h with
  | nil => simp
  | @cons f g fs gs hf _ ih =>
    cases f <;> cases g <;> simp_all
    omega

@[simp] theorem length_mark (used earlier xs : List Temp) :
    (mark used earlier xs).length = xs.length := by
  induction xs generalizing earlier with
  | nil => rfl
  | cons x xs ih => simp [mark, ih]

theorem mark_mono {used used' : List Temp} (h : ∀ x ∈ used, x ∈ used') (earlier xs : List Temp) :
    Marks (mark used' earlier xs) (mark used earlier xs) := by
  induction xs generalizing earlier with
  | nil => exact .nil
  | cons x xs ih =>
    refine .cons ?_ (ih _)
    simp only [Bool.and_eq_true, contains_iff_mem]
    exact fun hx => ⟨h x hx.1, hx.2⟩

/-- The entries of the second are entries of the first. -/
def Keeps (usage usage0 : Usage) : Prop :=
  ∀ ⦃d : DefnId⦄ ⦃flags : List Bool⦄, usage0[d]? = some flags → usage[d]? = some flags

variable {usage usage0 : Usage}

theorem mem_of_mem_keep {α : Type} {items : List α} {flags : List Bool} {a : α}
    (h : a ∈ keep items flags) : a ∈ items := by
  fun_induction keep items flags <;> simp_all
  grind

/-- Each argument that reaches a used slot of the definition by the first table does so by the
second. -/
def Narrows (usage usage0 : Usage) (d : DefnId) : Prop :=
  ∀ ⦃args : List Atom⦄ ⦃a : Atom⦄, a ∈ usage.usedArgs d args → a ∈ usage0.usedArgs d args

theorem Keeps.narrows (h : Keeps usage usage0) (d : DefnId) : Narrows usage usage0 d := by
  intro args a ha
  unfold usedArgs at ha ⊢
  split
  · rename_i flags hd
    rwa [h hd] at ha
  · split at ha
    · exact mem_of_mem_keep ha
    · exact ha

theorem Narrows.mem_callUses {c : Call} (h : Narrows usage usage0 (.block c.target)) {x : Temp}
    (hx : x ∈ usage.callUses c) : x ∈ usage0.callUses c := by
  obtain ⟨a, ha, hax⟩ := mem_filterMap.mp hx
  exact mem_filterMap.mpr ⟨a, h ha, hax⟩

theorem mem_tailUses_of_narrows {t : Tail} (h : ∀ d ∈ t.refs, Narrows usage usage0 d) {x : Temp}
    (hx : x ∈ usage.tailUses t) : x ∈ usage0.tailUses t := by
  cases t with
  | call c => exact (h (.block c.target) (by simp [Tail.refs])).mem_callUses hx
  | closure k args =>
    obtain ⟨a, ha, hax⟩ := mem_filterMap.mp hx
    exact mem_filterMap.mpr ⟨a, h (.closure k) (by simp [Tail.refs]) ha, hax⟩
  | ret | enter | data | sel | prim => exact hx

theorem mem_codeUses_of_narrows {code : Code} (h : ∀ d ∈ code.refs, Narrows usage usage0 d)
    {x : Temp} (hx : x ∈ usage.codeUses code) : x ∈ usage0.codeUses code := by
  have hcall {cs : List Call} (hcs : ∀ c ∈ cs, ∀ d ∈ (Tail.call c).refs, Narrows usage usage0 d)
    {c : Call}
      (hc : c ∈ cs) {x : Temp} : x ∈ usage.callUses c → x ∈ usage0.callUses c :=
    (hcs c hc (.block c.target) (by simp [Tail.refs])).mem_callUses
  induction code with
  | done t => exact mem_tailUses_of_narrows (Code.refs_done.mp h) hx
  | bind vars t rest ih =>
    obtain ⟨ht, hrest⟩ := Code.refs_bind.mp h
    simp only [codeUses, mem_append, mem_filter] at hx ⊢
    exact hx.imp (fun hx => ⟨ih hrest hx.1, hx.2⟩) (mem_tailUses_of_narrows ht)
  | assert a ctor rest ih =>
    simp only [codeUses, mem_append] at hx ⊢
    exact hx.imp_left (ih (Code.refs_assert.mp h).2)
  | branch test yes no =>
    have hcalls := (Code.refs_branch.mp h).2
    simp only [codeUses, mem_append] at hx ⊢
    exact hx.imp (Or.imp_right (hcall hcalls (by simp))) (hcall hcalls (by simp))
  | switch a alts =>
    have hcalls := (Code.refs_switch.mp h).2
    simp only [codeUses, mem_append, mem_flatMap] at hx ⊢
    refine hx.imp_right ?_
    rintro ⟨c, hc, hx⟩
    exact ⟨c, hc, hcall hcalls hc hx⟩

def Grows (usage0 usage : Usage) : Prop :=
  ∀ d : DefnId, (usage0[d]? = none ∧ usage[d]? = none) ∨
    ∃ flags flags', usage0[d]? = some flags ∧ usage[d]? = some flags' ∧ Marks flags' flags

def Same (usage usage0 : Usage) : Prop := ∀ d : DefnId, usage[d]? = usage0[d]?

theorem Same.keeps (h : Same usage usage0) : Keeps usage usage0 := fun d _ hd => (h d).trans hd

theorem Grows.refl (usage : Usage) : Grows usage usage := fun d => by
  cases h : usage[d]? with
  | none => exact .inl ⟨rfl, rfl⟩
  | some flags => exact .inr ⟨flags, flags, rfl, rfl, .refl flags⟩

theorem Grows.trans {usage1 : Usage} (h : Grows usage0 usage1) (h' : Grows usage1 usage) :
    Grows usage0 usage := fun d => by
  obtain ⟨h0, h1⟩ | ⟨f0, f1, h0, h1, hm⟩ := h d
  · obtain ⟨-, h2⟩ | ⟨f, _, h2, -, -⟩ := h' d
    · exact .inl ⟨h0, h2⟩
    · simp [h1] at h2
  · obtain ⟨h2, -⟩ | ⟨f, f2, h2, h3, hm'⟩ := h' d
    · simp [h1] at h2
    · obtain rfl := Option.mem_unique h1 h2
      exact .inr ⟨f0, f2, h0, h3, hm.trans hm'⟩

theorem Grows.antisymm (h : Grows usage0 usage) (h' : Grows usage usage0) : Same usage usage0 := by
  intro d
  obtain ⟨h0, h1⟩ | ⟨f0, f1, h0, h1, hm⟩ := h d
  · rw [h0, h1]
  · obtain ⟨h2, -⟩ | ⟨f, f2, h2, h3, hm'⟩ := h' d
    · simp [h1] at h2
    · obtain rfl := Option.mem_unique h1 h2
      obtain rfl := Option.mem_unique h0 h3
      rw [h0, h1, hm.antisymm hm']

theorem Same.grows (h : Same usage usage0) : Grows usage0 usage := fun d => by
  rw [h d]
  exact Grows.refl usage0 d

theorem getElem?_grow (usage : Usage) (d e : DefnId) (found : List Bool) :
    (usage.grow d found)[e]? = if d = e then usage[d]?.map (merge · found) else usage[e]? := by
  unfold grow
  split
  · rename_i flags hd
    rw [Std.TreeMap.getElem?_insert]
    simp [hd]
  · rename_i hd
    split
    · rename_i he
      simp [← he, hd]
    · rfl

theorem grows_grow (usage : Usage) (d : DefnId) (found : List Bool) :
    Grows usage (usage.grow d found) := fun e => by
  rw [getElem?_grow]
  split
  · rename_i he
    subst he
    cases usage[d]? with
    | none => exact .inl ⟨rfl, rfl⟩
    | some flags => exact .inr ⟨flags, _, rfl, rfl, marks_merge⟩
  · exact Grows.refl usage e

end Usage

/-- Blocks and closures take arguments that can be unused. -/
def DefnId.takesArgs : DefnId → Bool
  | block _ | closure _ => true
  | top _ => false

namespace Program

/-- The parameters of a block, the stored fields of a closure. -/
def slots (p : Program) : DefnId → List Temp
  | .block b => (p.blocks[b.index]?).elim [] Block.params
  | .closure k => (p.closures[k.index]?).elim [] Closure.stored
  | .top _ => []

def bodyUses (p : Program) (usage : Usage) : DefnId → List Temp
  | .block b => (p.blocks[b.index]?).elim [] fun block => usage.codeUses block.code
  | .closure k => (p.closures[k.index]?).elim [] fun closure => usage.tailUses closure.tail
  | .top _ => []

def usedSlots (p : Program) (usage : Usage) (d : DefnId) : List Bool :=
  Usage.mark (p.bodyUses usage d) [] (p.slots d)

variable {p : Program} {usage usage0 : Usage} {ds : List DefnId} {d : DefnId}

theorem length_usedSlots (usage : Usage) (d : DefnId) :
    (p.usedSlots usage d).length = (p.slots d).length := by
  simp [usedSlots]

theorem foundUsage_eq (hd : p.defines d = true) (usage : Usage) :
    p.foundUsage usage d = .ok (p.usedSlots usage d) := by
  cases d with
  | block b =>
    obtain ⟨block, hb⟩ := defines_block_iff.mp hd
    simp [foundUsage, block_eq_ok_iff.mpr hb, Except.map, usedSlots, bodyUses, slots, hb]
  | closure k =>
    obtain ⟨closure, hk⟩ := defines_closure_iff.mp hd
    simp [foundUsage, closure_eq_ok_iff.mpr hk, Except.map, usedSlots, bodyUses, slots, hk]
  | top => rfl

theorem usedSlots_mono (h : ∀ e, p.Refers d e → usage.Narrows usage0 e) :
    Marks (p.usedSlots usage0 d) (p.usedSlots usage d) := by
  refine mark_mono (fun x hx => ?_) _ _
  cases d with
  | block b =>
    unfold bodyUses at hx ⊢
    cases hb : p.blocks[b.index]? <;> simp only [hb, Option.elim] at hx ⊢
    · exact hx
    · exact mem_codeUses_of_narrows (fun e he => h e (refers_block_iff.mpr ⟨_, hb, he⟩)) hx
  | closure k =>
    unfold bodyUses at hx ⊢
    cases hk : p.closures[k.index]? <;> simp only [hk, Option.elim] at hx ⊢
    · exact hx
    · exact mem_tailUses_of_narrows (fun e he => h e (refers_closure_iff.mpr ⟨_, hk, he⟩)) hx
  | top => exact hx

def grown (p : Program) (usage : Usage) (d : DefnId) : Usage := usage.grow d (p.usedSlots usage d)

theorem foldlM_growUsage (hds : ∀ d ∈ ds, p.defines d = true) (usage : Usage) :
    ds.foldlM p.growUsage usage = .ok (ds.foldl p.grown usage) := by
  induction ds generalizing usage with
  | nil => rfl
  | cons d ds ih =>
    have hd : p.growUsage usage d = .ok (p.grown usage d) := by
      simp [growUsage, foundUsage_eq (hds d (by simp)), Except.map, grown]
    rw [foldlM_cons, hd]
    exact ih (fun e he => hds e (by simp [he])) _

theorem foldl_grown_grows (ds : List DefnId) (usage : Usage) :
    Grows usage (ds.foldl p.grown usage) := by
  induction ds generalizing usage with
  | nil => exact .refl _
  | cons d ds ih => exact (grows_grow _ _ _).trans (ih _)

theorem foldl_grown_of_not_mem {e : DefnId} (he : e ∉ ds) (usage : Usage) :
    (ds.foldl p.grown usage)[e]? = usage[e]? := by
  induction ds generalizing usage with
  | nil => rfl
  | cons d ds ih =>
    rw [foldl_cons, ih (fun h => he (by simp [h])), grown, getElem?_grow,
      if_neg fun h => he (by simp [h])]

def Sized (p : Program) (usage : Usage) : Prop :=
  ∀ (d : DefnId) flags, usage[d]? = some flags → flags.length = (p.slots d).length

/-- Do the entries mark what the bodies of these definitions use? -/
def Settled (p : Program) (usage : Usage) (ds : List DefnId) : Prop :=
  ∀ d ∈ ds, ∀ flags, usage[d]? = some flags → Usage.Marks flags (p.usedSlots usage d)

theorem Sized.grows (h : p.Sized usage0) (hg : Grows usage0 usage) : p.Sized usage := by
  intro d flags hflags
  obtain ⟨-, h1⟩ | ⟨f0, f1, h0, h1, hm⟩ := hg d
  · simp [hflags] at h1
  · obtain rfl := Option.mem_unique hflags h1
    rw [← h d f0 h0]
    exact hm.length_eq.symm

theorem settled_of_same (hsized : p.Sized usage)
    (hsame : Usage.Same (ds.foldl p.grown usage) usage) : p.Settled usage ds := by
  induction ds generalizing usage with
  | nil => exact fun _ h => nomatch h
  | cons d ds ih =>
    rw [foldl_cons] at hsame
    have hsame1 : Usage.Same (p.grown usage d) usage := (grows_grow _ _ _).antisymm
      ((foldl_grown_grows ds _).trans (Usage.Same.grows fun d => (hsame d).symm))
    rintro e (_ | ⟨_, he⟩) flags hflags
    · have hd := hsame1 d
      rw [grown, getElem?_grow, if_pos rfl, hflags, Option.map_some, Option.some.injEq] at hd
      rw [← hd]
      exact marks_merge_found ((p.length_usedSlots usage d).trans (hsized d flags hflags).symm)
    · have hsettled := ih (hsized.grows hsame1.grows)
        (fun d => (hsame d).trans (hsame1 d).symm) e he flags ((hsame1 e).trans hflags)
      exact (usedSlots_mono fun e _ => (Usage.Same.keeps fun d => (hsame1 d).symm).narrows e).trans
        hsettled

/-- How many marks may still be added for these definitions. -/
def unmarked (usage : Usage) (ds : List DefnId) : Nat :=
  (ds.map fun d => (usage.getD d []).count false).sum

theorem unmarked_le_width (usage : Usage) (ds : List DefnId) : unmarked usage ds ≤ usage.width ds :=
  sum_le_sum fun _ _ => count_le_length

theorem unmarked_lt (hg : Grows usage0 usage) (h : ∃ d ∈ ds, usage[d]? ≠ usage0[d]?) :
    unmarked usage ds < unmarked usage0 ds := by
  have hd (d : DefnId) : (usage.getD d []).count false ≤ (usage0.getD d []).count false ∧
      (usage[d]? ≠ usage0[d]? →
        (usage.getD d []).count false < (usage0.getD d []).count false) := by
    rw [Std.TreeMap.getD_eq_getD_getElem?, Std.TreeMap.getD_eq_getD_getElem?]
    obtain ⟨h0, h1⟩ | ⟨f0, f1, h0, h1, hm⟩ := hg d
    · simp [h0, h1]
    · simpa [h0, h1] using hm.count_false
  obtain ⟨d, hmem, hne⟩ := h
  exact sum_lt_sum _ _ (fun e _ => (hd e).1) ⟨d, hmem, (hd d).2 hne⟩

theorem settleUsage_spec (hds : ∀ d ∈ ds, p.defines d = true) {fuel : Nat} (hsized : p.Sized usage)
    (hfuel : unmarked usage ds < fuel) :
    ∃ usage', p.settleUsage ds fuel usage = .ok usage' ∧ Grows usage usage' ∧
      (∀ e ∉ ds, usage'[e]? = usage[e]?) ∧ p.Settled usage' ds := by
  induction fuel generalizing usage with
  | zero => omega
  | succ fuel ih =>
    have hgrows : Grows usage (ds.foldl p.grown usage) := foldl_grown_grows ds usage
    rw [settleUsage, foldlM_growUsage hds]
    simp only [bind, Except.bind]
    split
    · rename_i hall
      simp only [all_eq_true, beq_iff_eq] at hall
      refine ⟨usage, rfl, .refl _, fun _ _ => rfl, settled_of_same hsized fun e => ?_⟩
      by_cases he : e ∈ ds
      · exact hall e he
      · exact foldl_grown_of_not_mem he usage
    · rename_i hall
      have hne : ∃ d ∈ ds, (ds.foldl p.grown usage)[d]? ≠ usage[d]? := by simpa using hall
      have hlt := unmarked_lt hgrows hne
      obtain ⟨usage', h, hg, hout, hsettled⟩ := ih (hsized.grows hgrows) (by omega)
      exact ⟨usage', h, hgrows.trans hg,
        fun e he => (hout e he).trans (foldl_grown_of_not_mem he usage), hsettled⟩

/-- Adds the entry of a definition before anything is known. -/
def started (p : Program) (usage : Usage) (d : DefnId) : Usage :=
  match d with
  | .top _ => usage
  | d => usage.insert d (List.replicate (p.slots d).length (p.isEntrypoint d))

theorem startUsage_eq (hd : p.defines d = true) (usage : Usage) :
    p.startUsage usage d = .ok (p.started usage d) := by
  cases d with
  | block b =>
    obtain ⟨block, hb⟩ := defines_block_iff.mp hd
    simp [startUsage, block_eq_ok_iff.mpr hb, started, slots, hb, bind, Except.bind, pure,
      Except.pure]
  | closure k =>
    obtain ⟨closure, hk⟩ := defines_closure_iff.mp hd
    simp [startUsage, closure_eq_ok_iff.mpr hk, started, slots, hk, bind, Except.bind, pure,
      Except.pure]
  | top => rfl

theorem foldlM_startUsage (hds : ∀ d ∈ ds, p.defines d = true) (usage : Usage) :
    ds.foldlM p.startUsage usage = .ok (ds.foldl p.started usage) := by
  induction ds generalizing usage with
  | nil => rfl
  | cons d ds ih =>
    rw [foldlM_cons, startUsage_eq (hds d (by simp))]
    exact ih (fun e he => hds e (by simp [he])) _

theorem getElem?_started (usage : Usage) (d e : DefnId) :
    (p.started usage d)[e]? = if d = e ∧ e.takesArgs = true then
      some (replicate (p.slots e).length (p.isEntrypoint e)) else usage[e]? := by
  by_cases hde : d = e
  · subst hde
    cases d <;> simp [started, DefnId.takesArgs]
  · cases d <;> simp [started, Std.TreeMap.getElem?_insert, hde]

theorem getElem?_foldl_started (ds : List DefnId) (usage : Usage) (e : DefnId) :
    (ds.foldl p.started usage)[e]? = if e ∈ ds ∧ e.takesArgs = true then
      some (replicate (p.slots e).length (p.isEntrypoint e)) else usage[e]? := by
  induction ds generalizing usage with
  | nil => simp
  | cons d ds ih =>
    rw [foldl_cons, ih, getElem?_started]
    by_cases hde : d = e
    · subst hde
      by_cases htakes : d.takesArgs = true <;> simp [htakes]
    · simp [hde, Ne.symm hde]

/-- What is known of the usage once these definitions have been looked at. -/
structure Accounts (p : Program) (usage : Usage) (ds : List DefnId) : Prop where
  mem : ∀ (d : DefnId) flags, usage[d]? = some flags → d ∈ ds
  sized : p.Sized usage
  entrypoint : ∀ (d : DefnId) flags, usage[d]? = some flags → p.isEntrypoint d = true →
    flags = List.replicate (p.slots d).length true
  settled : p.Settled usage ds

/-- Looking at one more component, of definitions that were not looked at before. -/
theorem Accounts.component (h : p.Accounts usage ds) {members : List DefnId}
    (hdef : ∀ d ∈ members, p.defines d = true) (hnew : ∀ d ∈ members, d ∉ ds) :
    ∃ usage', (do
      let start ← members.foldlM p.startUsage usage
      p.settleUsage members (start.width members + 1) start) = .ok usage' ∧
      p.Accounts usage' (ds ++ members) := by
  have hstart (e : DefnId) : (members.foldl p.started usage)[e]? = usage[e]? ∨ e ∈ members ∧
      (members.foldl p.started usage)[e]? =
        some (replicate (p.slots e).length (p.isEntrypoint e)) := by
    rw [getElem?_foldl_started]
    split
    · rename_i he
      exact .inr ⟨he.1, rfl⟩
    · exact .inl rfl
  rw [foldlM_startUsage hdef]
  generalize members.foldl p.started usage = start at hstart
  have hsized : p.Sized start := by
    intro d flags hflags
    obtain hd | ⟨-, hd⟩ := hstart d
    · exact h.sized d flags (hd ▸ hflags)
    · obtain rfl := Option.mem_unique hflags hd
      simp
  obtain ⟨usage', hsettle, hgrows, hout, hsettled⟩ :=
    settleUsage_spec hdef hsized (Nat.lt_succ_of_le (unmarked_le_width start members))
  have hold (e : DefnId) (he : e ∉ members) : usage'[e]? = usage[e]? :=
    (hout e he).trans ((hstart e).resolve_right fun hm => he hm.1)
  refine ⟨usage', hsettle, ?_, hsized.grows hgrows, ?_, ?_⟩
  · intro d flags hd
    by_cases hm : d ∈ members
    · exact mem_append_right _ hm
    · exact mem_append_left _ (h.mem d flags (hold d hm ▸ hd))
  · intro d flags hd hentry
    obtain ⟨-, hnone⟩ | ⟨f0, f1, h0, h1, hm⟩ := hgrows d
    · simp [hd] at hnone
    · obtain rfl := Option.mem_unique hd h1
      have hf0 : f0 = replicate (p.slots d).length true := by
        obtain hd | ⟨-, hd⟩ := hstart d
        · exact h.entrypoint d f0 (hd ▸ h0) hentry
        · rw [hentry] at hd
          exact Option.mem_unique h0 hd
      exact (hf0 ▸ hm).eq_replicate
  · intro d hd flags hflags
    by_cases hm : d ∈ members
    · exact hsettled d hm flags hflags
    · -- Entries that are added only take uses away from definitions looked at before.
      have hkeeps : Keeps usage' usage := fun e fl he =>
        (hold e fun hmem => hnew e hmem (h.mem e fl he)).trans he
      have hds : d ∈ ds := (mem_append.mp hd).resolve_right hm
      exact (usedSlots_mono fun e _ => hkeeps.narrows e).trans
        (h.settled d hds flags (hold d hm ▸ hflags))

theorem usageOf_spec {cs : List Component} (h : p.Accounts usage ds)
    (hdef : ∀ d ∈ Component.allMembers cs, p.defines d = true)
    (hnodup : (ds ++ Component.allMembers cs).Nodup) :
    ∃ usage', p.usageOf cs usage = .ok usage' ∧
      p.Accounts usage' (ds ++ Component.allMembers cs) := by
  induction cs generalizing usage ds with
  | nil => exact ⟨usage, rfl, by simpa using h⟩
  | cons c cs ih =>
    simp only [Component.allMembers, flatMap_cons, ← append_assoc] at hdef hnodup ⊢
    have hnew : ∀ d ∈ c.members, d ∉ ds := by
      have := (nodup_append.mp (nodup_append.mp hnodup).1).2.2
      exact fun d hm hd => this d hd d hm rfl
    obtain ⟨usage1, h1, haccounts⟩ :=
      h.component (fun d hd => hdef d (mem_append_left _ hd)) hnew
    obtain ⟨usage', h', hfinal⟩ := ih haccounts (fun d hd => hdef d (mem_append_right _ hd)) hnodup
    refine ⟨usage', ?_, hfinal⟩
    obtain ⟨start, hstart, hsettle⟩ := bind_eq_ok_iff.mp h1
    rw [usageOf, hstart]
    simp only [bind, Except.bind, hsettle, h']

theorem usage_spec (h : p.Current) : ∃ usage, p.usage = .ok usage ∧
    p.Accounts usage (Component.allMembers p.components.toList) := by
  have hstart : p.Accounts {} [] := ⟨by simp, by simp [Sized], by simp, by simp [Settled]⟩
  refine usageOf_spec hstart (fun d hd => ?_) (by simpa using h.nodup)
  obtain ⟨cs, hcs⟩ := h.callees hd
  exact defines_of_callees hcs

end Program

end MonadicIR
