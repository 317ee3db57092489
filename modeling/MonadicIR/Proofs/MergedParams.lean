import MonadicIR.Proofs.FunctionGraphs
import MonadicIR.Proofs.Splicing
import MonadicIR.Proofs.Standards

namespace MonadicIR

open Program List

namespace Subst

variable {s : Subst} {ts : List Temp} {as : List Atom} {t : Temp}

theorem lookup_extendAll_of_notMem (h : t ∉ named ts) :
    (s.extendAll ts as).lookup t = s.lookup t := by
  induction ts generalizing s as with
  | nil => rfl
  | cons x ts ih =>
    cases as with
    | nil => rfl
    | cons a as =>
      have hrest : t ∉ named ts := fun ht =>
        h (mem_named.mpr ⟨.tail _ (mem_named.mp ht).1, (mem_named.mp ht).2⟩)
      rw [extendAll, ih hrest, lookup_extend, if_neg]
      rintro ⟨rfl, hx⟩
      exact h (mem_named.mpr ⟨.head .., hx⟩)

theorem exists_lookup_extendAll (hlen : ts.length = as.length) (ht : t ∈ named ts) :
    ∃ a ∈ as, (s.extendAll ts as).lookup t = some a := by
  induction ts generalizing s as with
  | nil => cases ht
  | cons x ts ih =>
    cases as with
    | nil => cases hlen
    | cons a as =>
      rw [extendAll]
      by_cases hrest : t ∈ named ts
      · obtain ⟨a', ha', hlookup⟩ := ih (s := s.extend x a) (Nat.succ.inj hlen) hrest
        exact ⟨a', .tail _ ha', hlookup⟩
      · obtain ⟨hmem, hnamed⟩ := mem_named.mp ht
        obtain rfl | hmem := mem_cons.mp hmem
        · refine ⟨a, .head .., ?_⟩
          rw [lookup_extendAll_of_notMem hrest, lookup_extend, if_pos ⟨rfl, hnamed⟩]
        · exact absurd (mem_named.mpr ⟨hmem, hnamed⟩) hrest

/-- Whatever the first substitution maps, the second one maps to the same. -/
def Extends (s s' : Subst) : Prop := ∀ {t : Temp} {a : Atom}, s.lookup t = some a →
    s'.lookup t = some a

theorem Extends.trans {s1 s2 : Subst} (h : s.Extends s1) (h' : s1.Extends s2) : s.Extends s2 :=
  fun ht => h' (h ht)

end Subst

theorem Tail.mem_temps_of_call? {t : Tail} {c : Call} (hc : c ∈ t.call?.toList) {u : Temp}
    (hu : .temp u ∈ c.args) : u ∈ t.temps := by
  obtain rfl : t = .call c := by cases t <;> simp_all [Tail.call?]
  exact mem_filterMap.mpr ⟨_, hu, rfl⟩

/-- A variable that is passed on is one that is read from outside, or bound before. -/
theorem Code.mem_openReads_of_endCalls {code : Code} {c : Call} (hc : c ∈ code.endCalls) {u : Temp}
    (hu : .temp u ∈ c.args) (bound : List Temp) :
    u ∈ code.openReads bound ∨ u ∈ bound ++ code.boundTemps := by
  have hfilter {ts bound : List Temp} (hmem : u ∈ ts) :
      u ∈ ts.filter (!bound.contains ·) ∨ u ∈ bound ++ [] := by
    by_cases hb : u ∈ bound
    · exact .inr (mem_append_left _ hb)
    · exact .inl (mem_filter.mpr ⟨hmem, by simpa using hb⟩)
  have hatoms {as : List Atom} (hmem : .temp u ∈ as) : u ∈ tempsOf as :=
    mem_filterMap.mpr ⟨_, hmem, rfl⟩
  induction code generalizing bound with
  | done t => exact hfilter (Tail.mem_temps_of_call? (mem_calls_of_endCalls hc) hu)
  | bind vars t rest ih =>
    rw [boundTemps, ← append_assoc]
    exact (ih hc (bound ++ vars)).imp_left (mem_append_right _)
  | assert a ctor rest ih => exact (ih hc bound).imp_left (mem_append_right _)
  | branch test yes no =>
    refine hfilter (hatoms (.tail _ (mem_append.mpr ?_)))
    obtain rfl | rfl : c = yes ∨ c = no := by simpa [endCalls] using hc
    · exact .inl hu
    · exact .inr hu
  | switch a alts => exact hfilter (hatoms (.tail _ (mem_flatMap.mpr ⟨c, hc, hu⟩)))

namespace Program

variable {p : Program}

/-- The variables that a definition reads without binding them. -/
def reads (p : Program) : DefnId → List Temp
  | .top t => (p.tops[t.index]?).elim [] fun top => top.tail.temps
  | d => p.openTemps d

def ownTemps (p : Program) (d : DefnId) : List Temp := p.entryTemps d ++ p.innerTemps d

/-- Each definition reads only what it takes or binds, and no other one has the same variables. -/
structure Separate (p : Program) : Prop where
  reads : ∀ d ∈ p.defns, ∀ t ∈ p.reads d, t ∈ p.entryTemps d
  apart : ∀ d ∈ p.defns, ∀ e ∈ p.defns, ∀ t ∈ named (p.ownTemps d), t ∈ p.ownTemps e → d = e

/-- All variables that belong to definitions are in the table. -/
def InTable (p : Program) : Prop := ∀ d ∈ p.defns, ∀ t ∈ p.ownTemps d, t.index < p.temps.size

instance (p : Program) : Decidable p.Separate :=
  decidable_of_iff ((∀ d ∈ p.defns, ∀ t ∈ p.reads d, t ∈ p.entryTemps d) ∧
    ∀ d ∈ p.defns, ∀ e ∈ p.defns, ∀ t ∈ named (p.ownTemps d), t ∈ p.ownTemps e → d = e)
    ⟨fun ⟨hreads, hapart⟩ => ⟨hreads, hapart⟩, fun h => ⟨h.reads, h.apart⟩⟩

instance (p : Program) : Decidable p.InTable :=
  inferInstanceAs (Decidable (∀ d ∈ p.defns, ∀ t ∈ p.ownTemps d, t.index < p.temps.size))

theorem mem_ownTemps_of_params {b : BlockId} {block : Block} (hblock : p.block b = .ok block)
    {t : Temp} (ht : t ∈ block.params) : t ∈ p.ownTemps (.block b) := by
  rw [block_eq_ok_iff] at hblock
  exact mem_append_left _ (by simpa [entryTemps, hblock] using ht)

theorem Separate.mem_ownTemps_of_endCalls (h : p.Separate) {b : BlockId} {block : Block}
    (hb : .block b ∈ p.defns) (hblock : p.block b = .ok block) {c : Call}
    (hc : c ∈ block.code.endCalls) {u : Temp} (hu : .temp u ∈ c.args) :
      u ∈ p.ownTemps (.block b) := by
  rw [block_eq_ok_iff] at hblock
  obtain hread | hbound := Code.mem_openReads_of_endCalls hc hu []
  · refine mem_append_left _ (h.reads _ hb u ?_)
    simpa [Program.reads, openTemps, hblock, Code.freeTemps, mem_distinct] using hread
  · exact mem_append_right _ (by simpa [innerTemps, hblock] using hbound)

end Program

namespace FlowGraph

variable {p : Program} {kind : Kind} {names labels : Array Label} {starts : List Call}
  {s s' : Subst} {calls : List Call} {l : Label} {b : BlockId}

/-- Does the label rename the variable, as a parameter that its only predecessor gives a value? -/
def Label.Renames (p : Program) (l : Label) (t : Temp) : Prop :=
  ∃ b block, l.kind = .code b ∧ l.preds.length = 1 ∧ p.block b = .ok block ∧ t ∈ named block.params

/-- Is the variable a parameter of the label's block? -/
def Label.Takes (p : Program) (l : Label) (t : Temp) : Prop :=
  ∃ b block, l.kind = .code b ∧ p.block b = .ok block ∧ t ∈ named block.params

theorem Label.Renames.takes {t : Temp} (h : l.Renames p t) : l.Takes p t := by
  obtain ⟨b, block, hkind, -, hblock, ht⟩ := h
  exact ⟨b, block, hkind, hblock, ht⟩

/-- Does one of the first labels rename the variable? -/
def Renamed (p : Program) (labels : Array Label) (n : Nat) (t : Temp) : Prop :=
  ∃ (i : Nat) (l : Label), i < n ∧ labels[i]? = some l ∧ l.Renames p t

theorem renamed_succ_iff {i : Nat} (hl : labels[i]? = some l) {t : Temp} :
    Renamed p labels (i + 1) t ↔ Renamed p labels i t ∨ l.Renames p t := by
  constructor
  · rintro ⟨j, l', hj, hl', ht⟩
    obtain hj | rfl := Nat.lt_succ_iff_lt_or_eq.mp hj
    · exact .inl ⟨j, l', hj, hl', ht⟩
    · obtain rfl := Option.mem_unique hl hl'
      exact .inr ht
  · rintro (⟨j, l', hj, hl', ht⟩ | ht)
    · exact ⟨j, l', Nat.lt_succ_of_lt hj, hl', ht⟩
    · exact ⟨i, l, Nat.lt_succ_self i, hl, ht⟩

/-- What happens to a label, and to the renaming, when its parameters are eliminated. -/
inductive Settles (p : Program) (kind : Kind) (names : Array Label) (l : Label) (s : Subst) :
    Subst → Prop
  | rename {b : BlockId} {block : Block} {x : Pred} : l.kind = .code b → p.block b = .ok block →
      l.preds = [x] → block.params.length = x.args.length →
      Settles p kind names l s (s.extendAll block.params (s.applyAll x.args))
  | merge {b : BlockId} {block : Block} : l.kind = .code b → p.block b = .ok block →
      l.preds.length ≠ 1 →
      phis kind names s b l.preds block.params.length 0 block.params = .ok l.phis →
      Settles p kind names l s s
  | other : (∀ b, l.kind ≠ .code b) → Settles p kind names l s s

/-- The same for labels in a row. -/
inductive SettlesAll (p : Program) (kind : Kind) (names : Array Label) :
    List Label → Subst → Subst → Prop
  | nil {s : Subst} : SettlesAll p kind names [] s s
  | cons {l : Label} {ls : List Label} {s s1 s' : Subst} : Settles p kind names l s s1 →
      SettlesAll p kind names ls s1 s' → SettlesAll p kind names (l :: ls) s s'

theorem eliminateParams_settles {ls ls' : List Label}
    (h : eliminateParams p kind names ls s = .ok (ls', s')) : SettlesAll p kind names ls' s s' := by
  induction ls generalizing ls' s with
  | nil =>
    obtain ⟨rfl, rfl⟩ := Prod.mk.inj (Except.ok.inj h)
    exact .nil
  | cons l ls ih =>
    have hrest {l' : Label} {s1 : Subst} (hl : Settles p kind names l' s s1)
        (hrun : (eliminateParams p kind names ls s1 >>= fun r =>
          (pure (l' :: r.1, r.2) : Except Fault _)) = .ok (ls', s')) :
        SettlesAll p kind names ls' s s' := by
      obtain ⟨⟨ls1, s2⟩, hls, hrun⟩ := bind_eq_ok_iff.mp hrun
      obtain ⟨rfl, rfl⟩ := Prod.mk.inj (Except.ok.inj hrun)
      exact .cons hl (ih hls)
    rw [eliminateParams] at h
    split at h
    · rename_i b hkind
      obtain ⟨block, hblock, h⟩ := bind_eq_ok_iff.mp h
      dsimp only at h
      split at h
      · rename_i x hpreds
        obtain ⟨s1, hs1, h⟩ := bind_eq_ok_iff.mp h
        obtain ⟨hlen, rfl⟩ := Subst.bind_eq_ok hs1
        exact hrest (.rename hkind hblock hpreds (by simpa [Subst.applyAll] using hlen)) h
      · rename_i hmany
        obtain ⟨merged, hmerged, h⟩ := bind_eq_ok_iff.mp h
        have hlen : l.preds.length ≠ 1 := fun hone => by
          obtain ⟨x, hx⟩ := length_eq_one_iff.mp hone
          exact hmany x hx
        have hsettles : Settles p kind names { l with phis := merged } s s :=
          .merge hkind hblock hlen hmerged
        exact hrest hsettles h
    · rename_i hother
      exact hrest (.other hother) h

/-- The labels of a graph whose blocks have variables of their own: no two labels rename the same
variable, and one that leaves some labels as an argument can be renamed by these only. -/
structure Untangled (p : Program) (starts : List Call) (labels : Array Label) : Prop where
  preds : ∀ {i : Nat} {l : Label}, labels[i]? = some l → ∃ x rest, l.preds = x :: rest ∧
    Passes p starts labels i l.kind x.args
  once : ∀ {i j : Nat} {l m : Label} {t : Temp}, labels[i]? = some l → labels[j]? = some m →
    l.Renames p t → m.Renames p t → i = j
  early : ∀ {n : Nat} {c : Call} {u : Temp}, Leaves p starts labels n c → .temp u ∈ c.args →
    Renamed p labels labels.size u → Renamed p labels n u

/-- The renaming after some labels: it maps what these rename, to atoms that no label renames. -/
structure Resolved (p : Program) (labels : Array Label) (n : Nat) (s : Subst) : Prop where
  domain : ∀ t, (∃ a, s.lookup t = some a) ↔ Renamed p labels n t
  stable : ∀ {t : Temp} {u : Temp}, s.lookup t = some (.temp u) → ¬ Renamed p labels labels.size u

theorem resolved_empty : Resolved p labels 0 {} := by
  refine ⟨fun t => ⟨?_, ?_⟩, ?_⟩
  · rintro ⟨a, ha⟩
    cases ha
  · rintro ⟨i, l, hi, -⟩
    omega
  · intro t u hu
    cases hu

theorem Resolved.apply {n : Nat} {s : Subst} (h : Resolved p labels n s)
    (hu : Untangled p starts labels)
    {c : Call} (hc : Leaves p starts labels n c) {a : Atom} (ha : a ∈ c.args) {u : Temp}
    (hau : s.apply a = .temp u) : ¬ Renamed p labels labels.size u := by
  cases a with
  | temp t =>
    rw [Subst.apply] at hau
    cases hlookup : s.lookup t with
    | some a =>
      rw [hlookup] at hau
      obtain rfl : a = .temp u := hau
      exact h.stable hlookup
    | none =>
      rw [hlookup] at hau
      obtain rfl := Atom.temp.inj hau
      -- It leaves one of the first labels, so it would be one of these that renames it.
      intro hrenamed
      obtain ⟨a, ha⟩ := (h.domain t).mpr (hu.early hc ha hrenamed)
      rw [ha] at hlookup
      cases hlookup
  | top | word | flag | external => cases hau

theorem Settles.resolved {i : Nat} (h : Settles p kind names l s s')
    (hu : Untangled p starts labels) (hl : labels[i]? = some l) (hs : Resolved p labels i s) :
    Resolved p labels (i + 1) s' ∧ s.Extends s' := by
  have hkeep (hnot : ∀ t, ¬ l.Renames p t) : Resolved p labels (i + 1) s ∧ s.Extends s := by
    refine ⟨⟨fun t => ?_, hs.stable⟩, id⟩
    rw [hs.domain, renamed_succ_iff hl, or_iff_left (hnot t)]
  cases h with
  | @rename b block x hkind hblock hpreds hlen =>
    have hparams (t : Temp) : l.Renames p t ↔ t ∈ named block.params := by
      constructor
      · rintro ⟨b', block', hkind', -, hblock', ht⟩
        obtain rfl := LabelKind.code.inj (hkind.symm.trans hkind')
        obtain rfl := Except.ok.inj (hblock.symm.trans hblock')
        exact ht
      · exact fun ht => ⟨b, block, hkind, by rw [hpreds]; rfl, hblock, ht⟩
    have hnew (t : Temp) (ht : t ∈ named block.params) : ∃ a ∈ s.applyAll x.args,
        (s.extendAll block.params (s.applyAll x.args)).lookup t = some a :=
      Subst.exists_lookup_extendAll (by simpa [Subst.applyAll] using hlen) ht
    have hold (t : Temp) (ht : t ∉ named block.params) :
        (s.extendAll block.params (s.applyAll x.args)).lookup t = s.lookup t :=
      Subst.lookup_extendAll_of_notMem ht
    refine ⟨⟨fun t => ?_, fun {t u} htu => ?_⟩, fun {t a} hta => ?_⟩
    · rw [renamed_succ_iff hl, hparams]
      by_cases ht : t ∈ named block.params
      · obtain ⟨a, -, ha⟩ := hnew t ht
        exact ⟨fun _ => .inr ht, fun _ => ⟨a, ha⟩⟩
      · rw [hold t ht, hs.domain, or_iff_left ht]
    · by_cases ht : t ∈ named block.params
      · obtain ⟨a, ha, hlookup⟩ := hnew t ht
        obtain rfl := Option.mem_unique htu hlookup
        obtain ⟨arg, harg, hau⟩ := mem_map.mp ha
        obtain ⟨_, rest, hsplit, c, hc, -, hcargs⟩ := hu.preds hl
        obtain ⟨rfl, -⟩ := List.cons.inj (hpreds.symm.trans hsplit)
        exact hs.apply hu hc (hcargs ▸ harg) hau
      · rw [hold t ht] at htu
        exact hs.stable htu
    · -- No parameter is mapped already, as another label would have to rename it too.
      rw [hold t fun ht => ?_]
      · exact hta
      · obtain ⟨j, m, hj, hm, hmt⟩ := (hs.domain t).mp ⟨a, hta⟩
        exact absurd (hu.once hm hl hmt ((hparams t).mpr ht)) (Nat.ne_of_lt hj)
  | merge hkind hblock hlen =>
    refine hkeep ?_
    rintro t ⟨-, -, -, hone, -⟩
    exact hlen hone
  | other hnot =>
    refine hkeep ?_
    rintro t ⟨b, -, hkind, -⟩
    exact hnot b hkind

/-- At each label, the renaming is that of the labels before it, and it is kept from there on. -/
theorem SettlesAll.resolved {before ls : List Label} (h : SettlesAll p kind names ls s s')
    (hu : Untangled p starts labels) (hlabels : labels.toList = before ++ ls)
    (hs : Resolved p labels before.length s) :
    Resolved p labels labels.size s' ∧ s.Extends s' ∧
      ∀ {k : Nat} {l : Label}, ls[k]? = some l → ∃ s1 s2, Settles p kind names l s1 s2 ∧
        Resolved p labels (before.length + k) s1 ∧ s1.Extends s' ∧ s2.Extends s' := by
  induction h generalizing before with
  | nil =>
    have hsize : before.length = labels.size := by
      rw [← Array.length_toList, hlabels, append_nil]
    exact ⟨hsize ▸ hs, id, by simp⟩
  | @cons l ls s s1 s' hl hrest ih =>
    have hat : labels[before.length]? = some l := by
      rw [← Array.getElem?_toList, hlabels]
      simp
    obtain ⟨hs1, hextends⟩ := hl.resolved hu hat hs
    have hs1 : Resolved p labels (before ++ [l]).length s1 := by simpa using hs1
    obtain ⟨hfinal, hextends', hall⟩ := ih (by simpa using hlabels) hs1
    refine ⟨hfinal, hextends.trans hextends', fun {k l'} hk => ?_⟩
    cases k with
    | zero =>
      obtain rfl : l = l' := by simpa using hk
      exact ⟨s, s1, hl, hs, hextends.trans hextends', hextends'⟩
    | succ k =>
      obtain ⟨s2, s3, hsettles, hres, hext⟩ := hall (by simpa using hk)
      refine ⟨s2, s3, hsettles, ?_, hext⟩
      simpa [Nat.add_assoc, Nat.add_comm 1] using hres

/-- Is the atom a variable that a label from this one on renames? -/
def Late (p : Program) (labels : Array Label) (n : Nat) (a : Atom) : Prop :=
  ∃ (u : Temp) (i : Nat) (l : Label), a = .temp u ∧ n ≤ i ∧ labels[i]? = some l ∧ l.Renames p u

/-- A renaming that still grows does what the finished one does, unless the variable comes late. -/
theorem Resolved.apply_of_not_late {n : Nat} (hs : Resolved p labels n s)
    (hs' : Resolved p labels labels.size s') (hextends : s.Extends s') {a : Atom}
    (ha : ¬ Late p labels n a) : s.apply a = s'.apply a ∧ s'.apply (s'.apply a) = s'.apply a := by
  have hnone {u : Temp} (hnot : ¬ Renamed p labels labels.size u) : s'.lookup u = none := by
    cases hlookup : s'.lookup u with
    | none => rfl
    | some a => exact absurd ((hs'.domain u).mp ⟨a, hlookup⟩) hnot
  cases a with
  | temp u =>
    cases hlookup : s.lookup u with
    | some a =>
      have hlookup' := hextends hlookup
      simp only [Subst.apply, hlookup, hlookup', Option.getD_some, true_and]
      cases a with
      | temp v => simp [hnone (hs'.stable hlookup')]
      | top | word | flag | external => rfl
    | none =>
      have hnot : ¬ Renamed p labels labels.size u := by
        rintro ⟨i, l, hi, hl, hu⟩
        by_cases hn : n ≤ i
        · exact ha ⟨u, i, l, rfl, hn, hl, hu⟩
        · obtain ⟨a, ha⟩ := (hs.domain u).mpr ⟨i, l, Nat.lt_of_not_le hn, hl, hu⟩
          rw [ha] at hlookup
          cases hlookup
      simp [Subst.apply, hlookup, hnone hnot]
  | top | word | flag | external => exact ⟨rfl, rfl⟩

/-- A variable that comes late is left as it is, and the finished renaming would change it. -/
theorem Resolved.apply_of_late {n : Nat} (hs : Resolved p labels n s)
    (hs' : Resolved p labels labels.size s') (hu : Untangled p starts labels) {a : Atom}
    (ha : Late p labels n a) : s.apply a = a ∧ s'.apply a ≠ a := by
  obtain ⟨u, i, l, rfl, hn, hl, ht⟩ := ha
  have hi := (Array.getElem?_eq_some_iff.mp hl).1
  have hrenamed : Renamed p labels labels.size u := ⟨i, l, hi, hl, ht⟩
  constructor
  · cases hlookup : s.lookup u with
    | none => simp [Subst.apply, hlookup]
    | some a =>
      obtain ⟨j, m, hj, hm, hmt⟩ := (hs.domain u).mp ⟨a, hlookup⟩
      have := hu.once hm hl hmt ht
      omega
  · obtain ⟨a, hlookup⟩ := (hs'.domain u).mpr hrenamed
    simp only [Subst.apply, hlookup, Option.getD_some]
    rintro rfl
    exact hs'.stable hlookup hrenamed

theorem phi_eq_ok {s : Subst} {arity j : Nat} {param : Temp} {preds : List Pred} {merged : Phi}
    (h : phi kind names s b arity j param preds = .ok merged) : merged.param = param ∧
      List.Forall₂ (fun x entry => entry.1 = sourceName kind names x.source ∧
        ∃ a, x.args[j]? = some a ∧ entry.2 = s.apply a) preds merged.incoming := by
  induction preds generalizing merged with
  | nil =>
    obtain rfl := Except.ok.inj h
    exact ⟨rfl, .nil⟩
  | cons x preds ih =>
    rw [phi] at h
    split at h
    · cases h
    · rename_i a ha
      obtain ⟨rest, hrest, h⟩ := bind_eq_ok_iff.mp h
      obtain rfl := Except.ok.inj h
      exact ⟨rfl, .cons ⟨rfl, a, ha, rfl⟩ (ih hrest).2⟩

theorem phis_eq_ok {s : Subst} {preds : List Pred} {arity j : Nat} {params : List Temp}
    {merged : List Phi} (h : phis kind names s b preds arity j params = .ok merged) :
    merged.map Phi.param = named params ∧ ∀ m ∈ merged, ∃ k : Nat, params[k]? = some m.param ∧
      List.Forall₂ (fun x entry => entry.1 = sourceName kind names x.source ∧
        ∃ a, x.args[j + k]? = some a ∧ entry.2 = s.apply a) preds m.incoming := by
  induction params generalizing j merged with
  | nil =>
    obtain rfl := Except.ok.inj h
    simp [named]
  | cons param params ih =>
    have hlater {merged : List Phi}
        (h : phis kind names s b preds arity (j + 1) params = .ok merged) (m : Phi)
          (hm : m ∈ merged) :
        ∃ k : Nat, (param :: params)[k]? = some m.param ∧
          List.Forall₂ (fun x entry => entry.1 = sourceName kind names x.source ∧
            ∃ a, x.args[j + k]? = some a ∧ entry.2 = s.apply a) preds m.incoming := by
      obtain ⟨k, hk, hall⟩ := (ih h).2 m hm
      exact ⟨k + 1, hk, by simpa only [Nat.add_assoc, Nat.add_comm 1] using hall⟩
    rw [phis] at h
    split at h
    · rename_i hwild
      exact ⟨by simp [(ih h).1, named, hwild], hlater h⟩
    · rename_i hnamed
      obtain ⟨first, hfirst, h⟩ := bind_eq_ok_iff.mp h
      obtain ⟨rest, hrest, h⟩ := bind_eq_ok_iff.mp h
      obtain rfl := Except.ok.inj h
      obtain ⟨hparam, hincoming⟩ := phi_eq_ok hfirst
      refine ⟨by simp [(ih hrest).1, named, hnamed, hparam], forall_mem_cons.mpr ⟨?_, hlater hrest⟩⟩
      exact ⟨0, by rw [hparam]; rfl, hincoming⟩

theorem sourceName_of_eliminateParams {ls : List Label}
    (h : eliminateParams p kind names names.toList s = .ok (ls, s')) (source : Source) :
    sourceName kind names source = sourceName kind ls.toArray source := by
  cases source with
  | entry => rfl
  | label i =>
    have hat := getElem?_of_forall₂ (eliminateParams_labels h) i
    rw [Array.getElem?_toList] at hat
    simp only [sourceName, labelName, getElem?_toArray]
    obtain ⟨hnone, hnone'⟩ | ⟨l, _, hl, hl', merged, rfl⟩ := hat
    · rw [hnone, hnone']
    · rw [hl, hl']
      rfl

/-- What a merge at label `i` gets for parameter `j` from a predecessor: the argument as the
finished renaming has it, or the argument itself if it comes late. Only in the second case is there
something left to rename. -/
def Incoming (p : Program) (g : FlowGraph) (i j : Nat) (x : Pred) (entry : String × Atom) : Prop :=
  entry.1 = sourceName g.kind g.labels x.source ∧ ∃ a, x.args[j]? = some a ∧
    (¬ Late p g.labels i a → entry.2 = g.renames.apply a) ∧ (Late p g.labels i a → entry.2 = a) ∧
    (g.renames.apply entry.2 = entry.2 ↔ ¬ Late p g.labels i a)

/-- A label with several predecessors has a merge for each parameter of its block that is kept, with
an entry for each predecessor, in order. -/
def Label.Merges (p : Program) (g : FlowGraph) (i : Nat) (l : Label) : Prop :=
  ∃ b block, l.kind = .code b ∧ p.block b = .ok block ∧ l.phis.map Phi.param = named block.params ∧
    ∀ m ∈ l.phis, ∃ j : Nat, block.params[j]? = some m.param ∧
      List.Forall₂ (Incoming p g i j) l.preds m.incoming

theorem resolved_of_graph {included : List BlockId} {next next' : Nat} {g : FlowGraph}
    (hrun : graph p kind included calls next = .ok (g, next')) (hu : Untangled p starts g.labels) :
    Resolved p g.labels g.labels.size g.renames ∧ ∃ names,
      (∀ source, sourceName kind names source = sourceName g.kind g.labels source) ∧
      ∀ {i : Nat} {l : Label}, g.labels[i]? = some l → ∃ s1 s2, Settles p kind names l s1 s2 ∧
        Resolved p g.labels i s1 ∧ s1.Extends g.renames ∧ s2.Extends g.renames := by
  obtain ⟨d, labels, -, -, -, hparams, -, rfl, -, hlabels⟩ := graph_eq_ok hrun
  have hlist : g.labels.toList = [] ++ labels := by rw [hlabels]; rfl
  have hempty : Resolved p g.labels ([] : List Label).length {} := resolved_empty
  obtain ⟨hfinal, -, hall⟩ := (eliminateParams_settles hparams).resolved hu hlist hempty
  refine ⟨hfinal, d.labels, fun source => ?_, fun {i l} hl => ?_⟩
  · rw [sourceName_of_eliminateParams hparams, hlabels]
  · have hmem : labels[i]? = some l := by rw [← getElem?_toArray, ← hlabels, hl]
    obtain ⟨s1, s2, hsettles, hs1, hextends⟩ := hall hmem
    rw [length_nil, Nat.zero_add] at hs1
    exact ⟨s1, s2, hsettles, hs1, hextends⟩

theorem merges_of_graph {included : List BlockId} {next next' : Nat} {g : FlowGraph}
    (hrun : graph p kind included calls next = .ok (g, next')) (hu : Untangled p starts g.labels)
    (hshape : g.WellFormed) {i : Nat} (hl : g.labels[i]? = some l) (hmany : 2 ≤ l.preds.length) :
    l.Merges p g i := by
  obtain ⟨hfinal, names, hnames, hall⟩ := resolved_of_graph hrun hu
  obtain ⟨s, _, hsettles, hs, hextends, -⟩ := hall hl
  have hl' : l ∈ g.labels := Array.mem_iff_getElem?.mpr ⟨i, hl⟩
  cases hsettles with
  | rename _ _ hpreds => simp [hpreds] at hmany
  | @merge b block hkind hblock hlen hphis =>
    obtain ⟨hnamed, hmerges⟩ := phis_eq_ok hphis
    refine ⟨b, block, hkind, hblock, hnamed, fun m hm => ?_⟩
    obtain ⟨j, hj, hincoming⟩ := hmerges m hm
    refine ⟨j, hj, hincoming.imp fun x entry => ?_⟩
    rintro ⟨hname, a, ha, hentry⟩
    rw [Nat.zero_add] at ha
    refine ⟨?_, a, ha, fun hnot => ?_, fun hlate => ?_, ?_⟩
    · rw [hname, hnames]
    · rw [hentry, (hs.apply_of_not_late hfinal hextends hnot).1]
    · rw [hentry, (hs.apply_of_late hfinal hu hlate).1]
    · by_cases hlate : Late p g.labels i a
      · obtain ⟨hsame, hchanges⟩ := hs.apply_of_late hfinal hu hlate
        rw [hentry, hsame]
        exact iff_of_false hchanges (not_not_intro hlate)
      · obtain ⟨hsame, hstays⟩ := hs.apply_of_not_late hfinal hextends hlate
        rw [hentry, hsame]
        exact iff_of_true hstays hlate
  | other hnot =>
    cases hkind : l.kind with
    | code b => exact absurd hkind (hnot b)
    | call c =>
      have := (hshape.call l hl' c hkind).1
      omega
    | goto target =>
      have := (hshape.goto l hl' target hkind).1
      omega

theorem Starts.notMem_ownTemps {functions : List (BlockId × List Temp)}
    (h : Starts p functions kind calls) (hseparate : p.Separate)
    (hfresh : ∀ f ∈ functions, ∀ u ∈ named f.2, ∀ d ∈ p.defns, u ∉ p.ownTemps d) {c : Call}
    (hc : c ∈ calls) {u : Temp} (hu : .temp u ∈ c.args) (hb : .block b ∈ p.defns) :
    u ∉ named (p.ownTemps (.block b)) := by
  intro hown
  cases h with
  | block _ hf =>
    obtain rfl := mem_singleton.mp hc
    obtain ⟨v, hv, hvu⟩ := mem_map.mp hu
    obtain rfl := Atom.temp.inj hvu
    obtain ⟨hmem, hnamed⟩ := mem_named.mp hown
    exact hfresh _ hf v (mem_named.mpr ⟨hv, hnamed⟩) _ hb hmem
  | @closure k _ hk hin =>
    obtain ⟨closure, hclosure, rfl⟩ := map_eq_ok_iff.mp hin
    rw [closure_eq_ok_iff] at hclosure
    have hread : u ∈ p.reads (.closure k) := by
      simpa [reads, openTemps, hclosure] using Tail.mem_temps_of_call? hc hu
    cases hseparate.apart _ hb _ hk u hown (mem_append_left _ (hseparate.reads _ hk u hread))
  | init hall =>
    obtain ⟨t, cs, ht, hin, hmem⟩ := hall c hc
    obtain ⟨top, htop, rfl⟩ := map_eq_ok_iff.mp hin
    rw [top_eq_ok_iff] at htop
    have hread : u ∈ p.reads (.top t) := by
      simpa [reads, htop] using Tail.mem_temps_of_call? hmem hu
    cases hseparate.reads _ ht u hread

namespace Drawn

variable {small : Nat} {functions : List (BlockId × List Temp)} {next next' : Nat} {g : FlowGraph}

variable (h : Drawn p small functions next g next')

include h

theorem mem_defns {l : Label} (hl : l ∈ g.labels) {b : BlockId} (hkind : l.kind = .code b) :
    .block b ∈ p.defns := by
  obtain ⟨calls, -, -, hrun⟩ := h.calls
  obtain ⟨i, hi⟩ := Array.mem_iff_getElem?.mp hl
  exact (h.expands.added b ((graph_traced hrun).code hi hkind) (by simp)).1

theorem index_unique {i j : Nat} {l m : Label} {b : BlockId} (hl : g.labels[i]? = some l)
    (hm : g.labels[j]? = some m) (hkind : l.kind = .code b) (hkind' : m.kind = .code b) :
    i = j := by
  obtain ⟨calls, -, -, hrun⟩ := h.calls
  exact (h.shape.unique b ((graph_traced hrun).code hl hkind)).unique ⟨l, hl, hkind⟩ ⟨m, hm, hkind'⟩

theorem owner {i : Nat} {l : Label} {t : Temp} (hl : g.labels[i]? = some l) (ht : l.Takes p t) :
    ∃ b, l.kind = .code b ∧ .block b ∈ p.defns ∧ t ∈ named (p.ownTemps (.block b)) := by
  obtain ⟨b, block, hkind, hblock, hmem⟩ := ht
  obtain ⟨hparam, hnamed⟩ := mem_named.mp hmem
  exact ⟨b, hkind, h.mem_defns (Array.mem_iff_getElem?.mpr ⟨i, hl⟩) hkind,
    mem_named.mpr ⟨mem_ownTemps_of_params hblock hparam, hnamed⟩⟩

theorem takes_unique (hseparate : p.Separate) {i j : Nat} {l m : Label} {t : Temp}
    (hl : g.labels[i]? = some l) (hm : g.labels[j]? = some m) (hlt : l.Takes p t)
    (hmt : m.Takes p t) : i = j := by
  obtain ⟨b, hkind, hb, hown⟩ := h.owner hl hlt
  obtain ⟨b', hkind', hb', hown'⟩ := h.owner hm hmt
  obtain rfl := DefnId.block.inj (hseparate.apart _ hb _ hb' _ hown (mem_named.mp hown').1)
  exact h.index_unique hl hm hkind hkind'

/-- The blocks of a graph have variables of their own, and its start passes none of them. -/
theorem untangled (hseparate : p.Separate)
    (hfresh : ∀ f ∈ functions, ∀ u ∈ named f.2, ∀ d ∈ p.defns, u ∉ p.ownTemps d) :
    ∃ starts, Untangled p starts g.labels := by
  obtain ⟨calls, hstarts, -, hrun⟩ := h.calls
  refine ⟨calls, fun hl => ?_, fun hl hm hlt hmt => h.takes_unique hseparate hl hm hlt.takes
    hmt.takes, fun {n c u} hc hu hrenamed => ?_⟩
  · obtain ⟨x, rest, hpreds, hfirst, -⟩ := (graph_traced hrun).preds hl
    exact ⟨x, rest, hpreds, hfirst⟩
  · obtain ⟨i, l, -, hl, hr⟩ := hrenamed
    obtain ⟨b, hkind, hb, hown⟩ := h.owner hl hr.takes
    obtain hstart | ⟨j, l', b', block', hj, hl', hkind', hblock', hc'⟩ := hc
    · exact absurd hown (hstarts.notMem_ownTemps hseparate hfresh hstart hu hb)
    · have hb' := h.mem_defns (Array.mem_iff_getElem?.mpr ⟨j, hl'⟩) hkind'
      have hown' := hseparate.mem_ownTemps_of_endCalls hb' hblock' hc' hu
      obtain rfl := DefnId.block.inj (hseparate.apart _ hb _ hb' u hown hown')
      exact ⟨i, l, h.index_unique hl hl' hkind hkind' ▸ hj, hl, hr⟩

end Drawn

end FlowGraph

namespace Edit

/-- The graphs of a checked program whose definitions have variables of their own. -/
theorem exists_untangled {p : Program} {small : Nat} (hcheck : p.check = .ok ())
    (hcurrent : p.Current) (hseparate : p.Separate) (htable : p.InTable) :
    ∃ gs m, flowGraphs small p = .ok gs { p with temps := m } ∧ ∀ g ∈ gs,
      ∃ functions next next' starts,
      FlowGraph.Drawn { p with temps := m } small functions next g next' ∧
      FlowGraph.Untangled { p with temps := m } starts g.labels := by
  obtain ⟨functions, m, gs, next', hrun, hall, -, hfunctions⟩ : ∃ functions m gs next',
      flowGraphs small p = .ok gs { p with temps := m } ∧ _ := exists_flowGraphs hcheck hcurrent
  have hseparate' : Separate { p with temps := m } := ⟨hseparate.reads, hseparate.apart⟩
  have hfresh (f : BlockId × List Temp) (hf : f ∈ functions) (u : Temp) (hu : u ∈ named f.2)
      (d : DefnId) (hd : d ∈ p.defns) : u ∉ p.ownTemps d := by
    obtain ⟨block, n, n', -, hn, hfresh⟩ := hfunctions f hf
    have hle := (hfresh.bounds hu).1
    intro hown
    have hlt := htable d hd u hown
    omega
  refine ⟨gs, m, hrun, fun g hg => ?_⟩
  obtain ⟨next, next', hdrawn⟩ := hall.drawn g hg
  obtain ⟨starts, hu⟩ := hdrawn.untangled hseparate' hfresh
  exact ⟨functions, next, next', starts, hdrawn, hu⟩

/-- The merges in the graphs of a checked program whose definitions have variables of their own. -/
theorem flowGraphs_merges (p : Program) (small : Nat) (hcheck : p.check = .ok ())
    (hcurrent : p.Current) (hseparate : p.Separate) (htable : p.InTable) :
    ∃ gs q, flowGraphs small p = .ok gs q ∧ ∀ g ∈ gs, ∀ (i : Nat) (l : FlowGraph.Label),
      g.labels[i]? = some l → 2 ≤ l.preds.length → l.Merges p g i := by
  obtain ⟨gs, m, hrun, hall⟩ := exists_untangled hcheck hcurrent hseparate htable
  refine ⟨gs, _, hrun, fun g hg i l hl hmany => ?_⟩
  obtain ⟨functions, next, next', starts, hdrawn, hu⟩ := hall g hg
  obtain ⟨calls, -, -, hgraph⟩ := hdrawn.calls
  exact FlowGraph.merges_of_graph hgraph hu hdrawn.shape hl hmany

end Edit

/-- A loop that is entered with a word, and goes round through a block that hands its parameter
back. -/
def roundTrip : Program where
  temps := ⟨.replicate 4 none⟩
  blocks := #[
    { params := []
      code := .done (.call ⟨⟨1⟩, [.word 3]⟩) },
    { params := [⟨1⟩]
      code := .bind [⟨2⟩] (.prim .eq [.temp ⟨1⟩, .word 0])
        (.branch (.temp ⟨2⟩) ⟨⟨2⟩, []⟩ ⟨⟨3⟩, [.temp ⟨1⟩]⟩) },
    { params := []
      code := .done (.ret [.word 0]) },
    { params := [⟨3⟩]
      code := .done (.call ⟨⟨1⟩, [.temp ⟨3⟩]⟩) }]
  entrypoints := [.block ⟨0⟩]

theorem roundTrip_shake : ∃ w, roundTrip.shake = .ok () w ∧ w.program.check = .ok () ∧
    w.program.Separate ∧ w.program.InTable := by
  obtain ⟨⟨⟩, w, hshake, htest⟩ := exists_ok (r := roundTrip.shake)
    (fun _ w => w.program.check == .ok () && decide w.program.Separate && decide w.program.InTable)
      (by cbv)
  simp only [Bool.and_eq_true, beq_iff_eq, decide_eq_true_eq, and_assoc] at htest
  exact ⟨w, hshake, htest⟩

namespace Edit

theorem flowGraphs_merges_roundTrip : ∃ w gs q, roundTrip.shake = .ok () w ∧
    w.program.check = .ok () ∧ w.program.Separate ∧ w.program.InTable ∧
    flowGraphs 4 w.program = .ok gs q ∧
    gs.map (fun g => g.labels.toList.map fun l => l.preds.length) = [[1, 2, 1, 1]] ∧
    ∀ g ∈ gs, ∀ (i : Nat) (l : FlowGraph.Label), g.labels[i]? = some l → 2 ≤ l.preds.length →
      l.Merges w.program g i := by
  obtain ⟨w, hshake, hcheck, hseparate, htable⟩ := roundTrip_shake
  obtain ⟨gs, q, hrun, hpreds⟩ := exists_ok (r := flowGraphs 4 (endState roundTrip.shake).program)
    (fun gs _ => gs.map (fun g => g.labels.toList.map fun l => l.preds.length) == [[1, 2, 1, 1]])
      (by cbv)
  rw [hshake] at hrun
  obtain ⟨gs', q', hrun', hmerges⟩ := flowGraphs_merges w.program 4 hcheck
    (upToDate_of_shake hshake).1.current hseparate htable
  obtain ⟨rfl, rfl⟩ := EStateM.Result.ok.inj (hrun.symm.trans hrun')
  exact ⟨w, gs, q, hshake, hcheck, hseparate, htable, hrun, eq_of_beq hpreds, hmerges⟩

/-- The way back is merged before the parameter that it passes is renamed. -/
theorem flowGraphs_roundTrip_unresolved : ∃ w gs q, roundTrip.shake = .ok () w ∧
    w.program.check = .ok () ∧ w.program.UpToDate ∧ w.program.Separate ∧ w.program.InTable ∧
    flowGraphs 4 w.program = .ok gs q ∧ ∃ g ∈ gs, ∃ l ∈ g.labels.toList, 2 ≤ l.preds.length ∧
      ∃ m ∈ l.phis, ∃ entry ∈ m.incoming, entry.2 = .temp ⟨3⟩ ∧ g.renames.apply entry.2 = .temp
        ⟨1⟩ := by
  obtain ⟨w, hshake, hcheck, hseparate, htable⟩ := roundTrip_shake
  obtain ⟨gs, q, hrun, hentry⟩ := exists_ok (r := flowGraphs 4 (endState roundTrip.shake).program)
    (fun gs _ => gs.any fun g => g.labels.toList.any fun l => decide (2 ≤ l.preds.length) &&
      l.phis.any fun m => m.incoming.any fun entry =>
        entry.2 == .temp ⟨3⟩ && g.renames.apply entry.2 == .temp ⟨1⟩) (by cbv)
  rw [hshake] at hrun
  simp only [any_eq_true, Bool.and_eq_true, beq_iff_eq, decide_eq_true_eq] at hentry
  exact ⟨w, gs, q, hshake, hcheck, (upToDate_of_shake hshake).1, hseparate, htable, hrun, hentry⟩

end Edit

end MonadicIR
