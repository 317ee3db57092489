import MonadicIR.Proofs.Basic

namespace MonadicIR

open Component Program Visited List

/-- Is the definition the top-level that one of the atoms refers to? -/
def InAtoms (d : DefnId) (as : List Atom) : Prop := ∃ a ∈ as, ∃ r, a.top? = some r ∧ .top r.top = d

theorem inAtoms_append {d : DefnId} {as bs : List Atom} :
    InAtoms d (as ++ bs) ↔ InAtoms d as ∨ InAtoms d bs := by
  simp [InAtoms, or_and_right, exists_or]

theorem Tail.top_mem_refs {t : Tail} {a : Atom} (ha : a ∈ t.atoms) {r : TopRef}
    (hr : a.top? = some r) : .top r.top ∈ t.refs :=
  mem_append_right _ (mem_filterMap.mpr ⟨a, ha, by simp [hr]⟩)

theorem Tail.mem_refs_call {c : Call} {d : DefnId} :
    d ∈ (Tail.call c).refs ↔ d = .block c.target ∨ InAtoms d c.args := by
  simp [refs, atoms, InAtoms]

namespace Code

variable {P : DefnId → Prop} {d : DefnId} {a : Atom} {t : Tail} {vars : List Temp} {ctor : Ctor}
  {rest : Code} {yes no : Call} {alts : Alts}

theorem mem_refs {code : Code} {d : DefnId} : d ∈ code.refs ↔ (∃ t ∈ code.tails, d ∈ t.refs) ∨
    (∃ c ∈ code.calls, .block c.target = d) ∨ InAtoms d code.atoms := by
  simp [refs, InAtoms]

theorem mem_refs_done : d ∈ (done t).refs ↔ d ∈ t.refs := by
  have hcall : (∃ c ∈ t.call?.toList, .block c.target = d) → d ∈ t.refs := by
    rintro ⟨c, hc, rfl⟩
    cases t <;> simp_all [Tail.call?, Tail.refs]
  have hatom : InAtoms d t.atoms → d ∈ t.refs := by
    rintro ⟨a, ha, r, hr, rfl⟩
    exact Tail.top_mem_refs ha hr
  simp only [mem_refs, tails, calls, atoms, mem_singleton, exists_eq_left]
  exact or_iff_left_of_imp (Or.rec hcall hatom)

theorem mem_refs_bind : d ∈ (bind vars t rest).refs ↔ d ∈ t.refs ∨ d ∈ rest.refs := by
  rw [← mem_refs_done, mem_refs, mem_refs, mem_refs]
  simp only [tails, calls, atoms, inAtoms_append, exists_mem_cons_iff, mem_append]
  grind

theorem mem_refs_assert : d ∈ (assert a ctor rest).refs ↔ InAtoms d [a] ∨ d ∈ rest.refs := by
  rw [mem_refs, mem_refs, atoms, ← singleton_append, inAtoms_append]
  simp only [tails, calls]
  grind

theorem mem_refs_branch : d ∈ (branch a yes no).refs ↔
    InAtoms d [a] ∨ ∃ c ∈ [yes, no], d ∈ (Tail.call c).refs := by
  rw [mem_refs, atoms, ← singleton_append, inAtoms_append, inAtoms_append]
  simp only [tails, calls, Tail.mem_refs_call]
  grind

theorem mem_refs_switch : d ∈ (switch a alts).refs ↔
    InAtoms d [a] ∨ ∃ c ∈ alts.calls, d ∈ (Tail.call c).refs := by
  rw [mem_refs, atoms, ← singleton_append, inAtoms_append]
  simp only [tails, calls, Tail.mem_refs_call, InAtoms, mem_flatMap]
  grind

theorem forall_inAtoms : (∀ d, InAtoms d [a] → P d) ↔ ∀ r, a.top? = some r → P (.top r.top) := by
  simp [InAtoms]

theorem refs_done : (∀ d ∈ (done t).refs, P d) ↔ ∀ d ∈ t.refs, P d := by
  simp only [mem_refs_done]

theorem refs_bind : (∀ d ∈ (bind vars t rest).refs, P d) ↔
    (∀ d ∈ t.refs, P d) ∧ ∀ d ∈ rest.refs, P d := by
  simp only [mem_refs_bind, or_imp, forall_and]

theorem refs_assert : (∀ d ∈ (assert a ctor rest).refs, P d) ↔
    (∀ r, a.top? = some r → P (.top r.top)) ∧ ∀ d ∈ rest.refs, P d := by
  simp only [mem_refs_assert, or_imp, forall_and, forall_inAtoms]

theorem refs_branch : (∀ d ∈ (branch a yes no).refs, P d) ↔
    (∀ r, a.top? = some r → P (.top r.top)) ∧ ∀ c ∈ [yes, no], ∀ d ∈ (Tail.call c).refs, P d := by
  simp only [mem_refs_branch, or_imp, forall_and, forall_inAtoms]
  grind

theorem refs_switch : (∀ d ∈ (switch a alts).refs, P d) ↔
    (∀ r, a.top? = some r → P (.top r.top)) ∧ ∀ c ∈ alts.calls, ∀ d ∈ (Tail.call c).refs, P d := by
  simp only [mem_refs_switch, or_imp, forall_and, forall_inAtoms]
  grind

end Code

namespace Visited

variable {α : Type} [Ord α] {v : Visited α}

theorem contains_iff {a : α} : v.contains a = true ↔ a ∈ v.items := by
  rw [contains, ← Std.TreeSet.mem_iff_contains, v.mem_index_iff]

/-- Everything is kept, and each item is there once. -/
structure Extends (v v' : Visited α) : Prop where
  suffix : v.items <:+ v'.items
  nodup : v'.items.Nodup

theorem Extends.refl (hv : v.items.Nodup) : Extends v v := ⟨suffix_refl _, hv⟩

theorem Extends.trans {v1 v2 v3 : Visited α} (h : Extends v1 v2) (h' : Extends v2 v3) :
    Extends v1 v3 :=
  ⟨h.suffix.trans h'.suffix, h'.nodup⟩

theorem Extends.foldl {f : Visited α → α → Visited α}
    (h : ∀ v a, v.items.Nodup → Extends v (f v a)) (items : List α) (hv : v.items.Nodup) :
    Extends v (items.foldl f v) := by
  induction items generalizing v with
  | nil => exact .refl hv
  | cons a items ih => exact (h v a hv).trans (ih (h v a hv).nodup)

theorem Extends.since {v' : Visited α} (h : Extends v v') : v'.items = v'.since v ++ v.items := by
  obtain ⟨new, hnew⟩ := h.suffix
  have hnodup := h.nodup
  rw [← hnew, nodup_append] at hnodup
  have hfresh : ∀ a ∈ new, (!v.contains a) = true := fun a ha => by
    simpa [← contains_iff] using fun hv => hnodup.2.2 a ha a hv rfl
  have hstop : v.items.takeWhile (fun a => !v.contains a) = [] := by
    cases hi : v.items with
    | nil => rfl
    | cons a as =>
      have : v.contains a = true := contains_iff.mpr (by simp [hi])
      simp [this]
  rw [Visited.since, ← hnew, takeWhile_append_of_pos hfresh, hstop, append_nil]

variable [Std.TransOrd α] [Std.LawfulEqOrd α] {next : α → List α}

theorem Extends.explore (fuel : Nat) (v : Visited α) (a : α) (hv : v.items.Nodup) :
    Extends v (v.explore next fuel a) := by
  induction fuel generalizing v a with
  | zero => exact .refl hv
  | succ fuel ih =>
    unfold Visited.explore
    split
    · exact .refl hv
    · rename_i ha
      have hins : (v.insert a).items.Nodup := nodup_cons.mpr ⟨mt contains_iff.mpr ha, hv⟩
      exact Extends.trans ⟨suffix_cons a v.items, hins⟩ (.foldl ih _ hins)

theorem mem_explore (fuel : Nat) (v : Visited α) (a : α) (hv : v.items.Nodup) :
    a ∈ (v.explore next (fuel + 1) a).items := by
  unfold explore
  split
  · exact contains_iff.mp ‹_›
  · rename_i ha
    have hins : (v.insert a).items.Nodup := nodup_cons.mpr ⟨mt contains_iff.mpr ha, hv⟩
    exact (Extends.foldl (.explore fuel) (next a) hins).suffix.subset (.head ..)

theorem explore_forall {P : α → Prop} (hnext : ∀ a, ∀ b ∈ next a, P b) (fuel : Nat) (v : Visited α)
    (a : α) (hv : ∀ b ∈ v.items, P b) (ha : P a) : ∀ b ∈ (v.explore next fuel a).items, P b := by
  induction fuel generalizing v a with
  | zero => exact hv
  | succ fuel ih =>
    unfold explore
    split
    · exact hv
    · have hfold (items : List α) (v : Visited α) (hv : ∀ b ∈ v.items, P b)
          (hitems : ∀ b ∈ items, P b) : ∀ b ∈ (items.foldl (explore next fuel) v).items, P b := by
        induction items generalizing v with
        | nil => exact hv
        | cons b items ihl =>
          exact ihl _ (ih v b hv (hitems b (by simp))) fun c hc => hitems c (by simp [hc])
      refine hfold _ _ ?_ (hnext a)
      rintro b (_ | ⟨_, hb⟩)
      · exact ha
      · exact hv b hb

end Visited

namespace Component

variable {p : Program}

def Search.left (p : Program) (s : Search) : List DefnId :=
  p.allDefns.filter fun d => d ∉ s.visited

/-- What holds of a search while the definitions in `pending` are being explored. -/
structure Search.Valid (p : Program) (pending : List DefnId) (s : Search) : Prop where
  callees : ∀ e ∈ s.finished, p.callees e.1 = .ok e.2
  closed : ∀ e ∈ s.finished, ∀ c ∈ e.2, c ∈ s.visited
  visited : ∀ d, d ∈ s.visited → d ∈ pending ∨ d ∈ s.finished.map Prod.fst

theorem Search.Valid.visiting {pending : List DefnId} {s : Search} (hs : s.Valid p pending)
    (d : DefnId) : Search.Valid p (d :: pending) { s with visited := s.visited.insert d } := by
  refine ⟨hs.callees, fun e he c hc => ?_, fun e he => ?_⟩
  · simp [Std.TreeSet.mem_insert, hs.closed e he c hc]
  · rw [Std.TreeSet.mem_insert, Std.compare_eq_iff_eq] at he
    obtain rfl | he := he
    · simp
    · exact (hs.visited e he).imp_left (mem_cons_of_mem _)

theorem Search.left_length_lt {s : Search} {d : DefnId} (hd : d ∈ p.allDefns)
    (hnew : d ∉ s.visited) :
    (Search.left p { s with visited := s.visited.insert d }).length < (s.left p).length := by
  have hsub : Search.left p { s with visited := s.visited.insert d } =
      (s.left p).filter fun e => d ≠ e := by
    simp only [Search.left, filter_filter]
    refine filter_congr fun e _ => ?_
    simp [Std.TreeSet.mem_insert, not_or]
  rw [hsub, length_filter_lt_length_iff_exists]
  exact ⟨d, by simpa [Search.left] using ⟨hd, hnew⟩, by simp⟩

theorem Search.left_length_le {s s' : Search} (h : ∀ d, d ∈ s.visited → d ∈ s'.visited) :
    (s'.left p).length ≤ (s.left p).length := by
  refine (monotone_filter_right _ fun d hd => ?_).length_le
  simp only [decide_eq_true_eq] at hd ⊢
  exact mt (h d) hd

/-- What exploring from a definition does, while those in `pending` are being explored. -/
def Explores (p : Program) (pending : List DefnId) (fuel : Nat) : Prop :=
  ∀ ⦃s s' d⦄, s.Valid p pending → (s.left p).length < fuel → visit p fuel s d = .ok s' →
    s'.Valid p pending ∧ (∀ e, e ∈ s.visited → e ∈ s'.visited) ∧ d ∈ s'.visited

theorem Explores.fold {pending : List DefnId} {fuel : Nat} (h : Explores p pending fuel)
    {s s' : Search} {ds : List DefnId} (hs : s.Valid p pending) (hfuel : (s.left p).length < fuel)
    (hfold : ds.foldlM (visit p fuel) s = .ok s') :
    s'.Valid p pending ∧ (∀ e, e ∈ s.visited → e ∈ s'.visited) ∧ ∀ d ∈ ds, d ∈ s'.visited := by
  induction ds generalizing s with
  | nil =>
    obtain rfl := Except.ok.inj hfold
    exact ⟨hs, fun _ => id, by simp⟩
  | cons d ds ih =>
    rw [foldlM_cons] at hfold
    obtain ⟨s1, h1, hrest⟩ := bind_eq_ok_iff.mp hfold
    obtain ⟨hs1, hsub, hd⟩ := h hs hfuel h1
    obtain ⟨hs', hsub', hds⟩ := ih hs1 (lt_of_le_of_lt (Search.left_length_le hsub) hfuel) hrest
    refine ⟨hs', fun e he => hsub' e (hsub e he), ?_⟩
    rintro e (_ | ⟨_, he⟩)
    · exact hsub' d hd
    · exact hds e he

theorem explores (pending : List DefnId) (fuel : Nat) : Explores p pending fuel := by
  induction fuel generalizing pending with
  | zero => exact fun _ _ _ _ h => absurd h (by omega)
  | succ fuel ih =>
    intro s s' d hs hfuel h
    unfold visit at h
    split at h
    · rename_i hd
      obtain rfl := Except.ok.inj h
      exact ⟨hs, fun _ => id, hd⟩
    · rename_i hd
      obtain ⟨cs, hcs, h⟩ := bind_eq_ok_iff.mp h
      obtain ⟨s1, hfold, h⟩ := bind_eq_ok_iff.mp h
      obtain rfl := Except.ok.inj h
      have hfuel' := Search.left_length_lt
        (mem_allDefns.mpr (defines_of_callees hcs)) hd
      obtain ⟨hs1, hsub, hall⟩ := (ih _).fold (hs.visiting d) (by omega) hfold
      have hsub' : ∀ e, e ∈ s.visited ∨ e = d → e ∈ s1.visited := fun e he =>
        hsub e (Std.TreeSet.mem_insert.mpr (he.symm.imp_left fun h =>
          Std.compare_eq_iff_eq.mpr h.symm))
      refine ⟨⟨?_, ?_, ?_⟩, fun e he => hsub' e (.inl he), hsub' d (.inr rfl)⟩
      · rintro e (_ | ⟨_, he⟩)
        · exact hcs
        · exact hs1.callees e he
      · rintro e (_ | ⟨_, he⟩)
        · exact hall
        · exact hs1.closed e he
      · intro e he
        have := hs1.visited e he
        simp only [mem_cons, map_cons] at this ⊢
        tauto

theorem Neighbours.mem_add {ns : Neighbours} {d e x y : DefnId} :
    y ∈ (ns.add d e).of x ↔ (x = d ∧ y = e) ∨ y ∈ ns.of x := by
  unfold add of
  rw [Std.TreeMap.getD_insert]
  by_cases h : d = x
  · subst h
    simp
  · simp [h, Ne.symm h]

theorem Neighbours.mem_foldl_add {ns : Neighbours} {cs : List DefnId} {d x y : DefnId} :
    y ∈ (cs.foldl (fun ns c => ns.add c d) ns).of x ↔ (x ∈ cs ∧ y = d) ∨ y ∈ ns.of x := by
  induction cs generalizing ns with
  | nil => simp
  | cons c cs ih =>
    rw [foldl_cons, ih, mem_add, mem_cons]
    tauto

theorem Graph.mem_callers_iff {nodes : List (DefnId × List DefnId)} {d e : DefnId} :
    e ∈ (Graph.ofFinished nodes).callers.of d ↔ ∃ cs, (e, cs) ∈ nodes ∧ d ∈ cs := by
  simp only [Graph.ofFinished]
  induction nodes with
  | nil => simp [Neighbours.of]
  | cons node nodes ih =>
    obtain ⟨x, callees⟩ := node
    rw [foldr_cons, Neighbours.mem_foldl_add, ih]
    simp only [mem_cons, Prod.mk.injEq]
    constructor
    · rintro (⟨hd, rfl⟩ | ⟨cs, hcs, hd⟩)
      · exact ⟨callees, .inl ⟨rfl, rfl⟩, hd⟩
      · exact ⟨cs, .inr hcs, hd⟩
    · rintro ⟨cs, ⟨rfl, rfl⟩ | hcs, hd⟩
      · exact .inl ⟨hd, rfl⟩
      · exact .inr ⟨cs, hcs, hd⟩

theorem Graph.groups_spec (g : Graph) (fuel : Nat) {P : DefnId → Prop}
    (hg : ∀ d, ∀ e ∈ g.callers.of d, P e) (nodes : List (DefnId × List DefnId))
    (seen : Visited DefnId) (hseen : seen.items.Nodup) (hP : ∀ d ∈ seen.items, P d)
    (hnodes : ∀ e ∈ nodes, P e.1) :
    (∀ d ∈ (g.groups (fuel + 1) nodes seen).flatten, P d ∧ d ∉ seen.items) ∧
      (g.groups (fuel + 1) nodes seen).flatten.Nodup ∧
      ∀ e ∈ nodes, e.1 ∈ seen.items ∨ e.1 ∈ (g.groups (fuel + 1) nodes seen).flatten := by
  induction nodes generalizing seen with
  | nil => simp [groups]
  | cons node nodes ih =>
    obtain ⟨d, callees⟩ := node
    have hnodes' : ∀ e ∈ nodes, P e.1 := fun e he => hnodes e (.tail _ he)
    unfold groups
    split
    · rename_i hd
      obtain ⟨h1, h2, h3⟩ := ih seen hseen hP hnodes'
      refine ⟨h1, h2, ?_⟩
      rintro e (_ | ⟨_, he⟩)
      · exact .inl (contains_iff.mp hd)
      · exact h3 e he
    · rename_i hd
      have hext : Extends seen (seen.explore g.callers.of (fuel + 1) d) := .explore _ _ _ hseen
      have hmem : d ∈ (seen.explore g.callers.of (fuel + 1) d).items :=
        mem_explore fuel seen d hseen
      have hP' := explore_forall hg (fuel + 1) seen d hP (hnodes _ (.head ..))
      generalize seen.explore g.callers.of (fuel + 1) d = seen' at hext hmem hP' ⊢
      obtain ⟨h1, h2, h3⟩ := ih seen' hext.nodup hP' hnodes'
      have hitems := hext.since
      have hnodup := hitems ▸ hext.nodup
      rw [nodup_append] at hnodup
      have hsort (e : DefnId) : e ∈ DefnId.sort (seen'.since seen) ↔ e ∈ seen'.since seen :=
        (mergeSort_perm ..).mem_iff
      have hsplit (e : DefnId) : e ∈ seen'.items ↔ e ∈ seen'.since seen ∨ e ∈ seen.items := by
        conv_lhs => rw [hitems]
        exact mem_append
      simp only [flatten_cons, mem_append, hsort]
      refine ⟨?_, ?_, ?_⟩
      · rintro e (he | he)
        · exact ⟨hP' e ((hsplit e).mpr (.inl he)), fun h => hnodup.2.2 e he e h rfl⟩
        · exact ⟨(h1 e he).1, fun h => (h1 e he).2 ((hsplit e).mpr (.inr h))⟩
      · refine nodup_append.mpr ⟨(mergeSort_perm ..).nodup_iff.mpr hnodup.1, h2, ?_⟩
        rintro e he _ he' rfl
        exact (h1 e he').2 ((hsplit e).mpr (.inl ((hsort e).mp he)))
      · rintro e (_ | ⟨_, he⟩)
        · exact ((hsplit d).mp hmem).symm.imp_right .inl
        · obtain he | he := h3 e he
          · exact ((hsplit e.1).mp he).symm.imp_right .inl
          · exact .inr (.inr he)

abbrev allMembers (cs : List Component) : List DefnId := cs.flatMap Component.members

theorem Graph.allMembers_mapIdx (g : Graph) (ps : Positions) (groups : List (List DefnId)) :
    allMembers (groups.mapIdx (g.component ps)) = groups.flatten := by
  rw [allMembers, flatMap_def]
  congr 1
  refine ext_getElem (by simp) fun i _ _ => ?_
  simp [Graph.component]

/-- The components hold the roots, each definition once, and are closed under references. -/
theorem allMembers_ofRoots {roots : List DefnId} {cs : List Component}
    (h : ofRoots p roots = .ok cs) :
    (allMembers cs).Nodup ∧ (∀ d ∈ roots, d ∈ allMembers cs) ∧
      ∀ d ∈ allMembers cs, ∃ callees, p.callees d = .ok callees ∧ ∀ e ∈ callees,
        e ∈ allMembers cs := by
  obtain ⟨s, hfold, h⟩ := bind_eq_ok_iff.mp h
  obtain rfl := Except.ok.inj h
  have hstart : Search.Valid p [] {} := ⟨by simp, by simp, by simp⟩
  have hfuel : (Search.left p {}).length < p.allDefns.length + 1 :=
    Nat.lt_succ_of_le (length_filter_le ..)
  obtain ⟨hs, -, hroots⟩ := (explores [] _).fold hstart hfuel hfold
  generalize hg : Graph.ofFinished s.finished = g
  have hcallers (d : DefnId) : ∀ e ∈ g.callers.of d, e ∈ s.finished.map Prod.fst := fun e he => by
    obtain ⟨cs, hcs, -⟩ := Graph.mem_callers_iff.mp (hg ▸ he)
    exact mem_map_of_mem (f := Prod.fst) hcs
  obtain ⟨h1, h2, h3⟩ := g.groups_spec s.finished.length hcallers s.finished {} nodup_nil
    (by simp) fun e he => mem_map_of_mem he
  rw [Graph.allMembers_mapIdx]
  generalize g.groups (s.finished.length + 1) s.finished {} = groups at h1 h2 h3
  have hperm : groups.reverse.flatten.Perm groups.flatten := (reverse_perm groups).flatten
  have hmem (d : DefnId) (hd : d ∈ s.visited) : d ∈ groups.reverse.flatten := by
    obtain ⟨e, he, rfl⟩ := mem_map.mp ((hs.visited d hd).resolve_left (by simp))
    exact hperm.mem_iff.mpr ((h3 e he).resolve_left (by simp))
  refine ⟨hperm.nodup_iff.mpr h2, fun d hd => hmem d (hroots d hd), fun d hd => ?_⟩
  obtain ⟨e, he, rfl⟩ := mem_map.mp (h1 d (hperm.mem_iff.mp hd)).1
  exact ⟨e.2, hs.callees e he, fun c hc => hmem c (hs.closed e he c hc)⟩

theorem ofRoots_congr {p q : Program} (hcallees : q.callees = p.callees)
    (hdefns : q.allDefns = p.allDefns) (roots : List DefnId) :
      ofRoots q roots = ofRoots p roots := by
  have hvisit (fuel : Nat) : visit q fuel = visit p fuel := by
    induction fuel with
    | zero => rfl
    | succ fuel ih =>
      funext s d
      simp only [visit, hcallees, ih]
  simp only [ofRoots, hdefns, hvisit]

end Component

namespace Program

variable {p : Program}

/-- The same bodies stand at the same numbers. -/
structure SameBodies (p q : Program) : Prop where
  blocks : q.blocks.map Block.code = p.blocks.map Block.code
  closures : q.closures.map Closure.tail = p.closures.map Closure.tail
  tops : q.tops.map TopLevel.tail = p.tops.map TopLevel.tail

namespace SameBodies

variable {q : Program}

variable (h : SameBodies p q)

include h

theorem sizes : q.blocks.size = p.blocks.size ∧ q.closures.size = p.closures.size ∧
    q.tops.size = p.tops.size := by
  simpa using And.intro (congrArg Array.size h.blocks)
    (And.intro (congrArg Array.size h.closures) (congrArg Array.size h.tops))

theorem defines : q.defines = p.defines := by
  obtain ⟨hblocks, hclosures, htops⟩ := h.sizes
  funext d
  cases d <;> simp only [Program.defines, hblocks, hclosures, htops]

theorem allDefns : q.allDefns = p.allDefns := by
  obtain ⟨hblocks, hclosures, htops⟩ := h.sizes
  simp only [Program.allDefns, blockIds, closureIds, topIds, hblocks, hclosures, htops]

theorem callees : q.callees = p.callees := by
  -- What is looked up under a number is compared by its body alone.
  have hbody {α β γ : Type} {xs ys : Array α} {body : α → β} (hxs : xs.map body = ys.map body)
      (i : Nat) (g : β → γ) : xs[i]?.map (g ∘ body) = ys[i]?.map (g ∘ body) := by
    have hi := congrArg (fun zs : Array β => zs[i]?.map g) hxs
    simpa only [Array.getElem?_map, Option.map_map] using hi
  funext d
  cases d with
  | block b =>
    have hb := hbody h.blocks b.index fun code => distinct code.refs
    simp only [Program.callees, Program.block]
    revert hb
    cases q.blocks[b.index]? <;> cases p.blocks[b.index]? <;> simp [Except.map]
  | closure k =>
    have hk := hbody h.closures k.index fun tail => distinct tail.refs
    simp only [Program.callees, Program.closure]
    revert hk
    cases q.closures[k.index]? <;> cases p.closures[k.index]? <;> simp [Except.map]
  | top t =>
    have ht := hbody h.tops t.index fun tail => distinct tail.refs
    simp only [Program.callees, Program.top]
    revert ht
    cases q.tops[t.index]? <;> cases p.tops[t.index]? <;> simp [Except.map]

end SameBodies

theorem sameBodies_mapNotes (p : Program) (f : DefnId → Notes → Notes) :
    SameBodies p (p.mapNotes f) := by
  constructor <;> exact Array.ext (by simp [mapNotes]) fun i _ _ => by simp [mapNotes]

theorem sameBodies_setComponents (p : Program) (cs : List Component) :
    SameBodies p (p.setComponents cs) := by
  obtain ⟨hblocks, hclosures, htops⟩ := p.sameBodies_mapNotes fun d notes =>
    { notes with component := (positions (cs.map members))[d]? }
  exact ⟨hblocks, hclosures, htops⟩

theorem SameBodies.roots {q : Program} (h : SameBodies p q)
    (hentry : q.entrypoints = p.entrypoints) : q.roots = p.roots := by
  simp only [Program.roots, hentry, h.defines]

/-- Computing the components again would change nothing. -/
def Current (p : Program) : Prop :=
  ∃ cs, Component.ofRoots p p.roots = .ok cs ∧ p.setComponents cs = p

def Retained (p : Program) (d : DefnId) : Prop := d ∈ Component.allMembers p.components.toList

theorem defns_of_retained {d : DefnId} (hd : p.Retained d) :
    p.defns = allMembers p.components.toList := by
  unfold defns
  split
  · rename_i hempty
    simp [Retained, allMembers, Array.isEmpty_iff.mp hempty] at hd
  · rfl

theorem current_setComponents {cs : List Component} (h : ofRoots p p.roots = .ok cs) :
    (p.setComponents cs).Current := by
  have hsame := p.sameBodies_setComponents cs
  refine ⟨cs, ?_, ?_⟩
  · rw [hsame.roots rfl, ofRoots_congr hsame.callees hsame.allDefns, h]
  · -- The notes are set to what they are set to already.
    simp [setComponents, mapNotes, Array.mapIdx_mapIdx, Function.comp_def]

variable (h : p.Current)

include h

theorem Current.components : ofRoots p p.roots = .ok p.components.toList := by
  obtain ⟨cs, hcs, hp⟩ := h
  rw [hcs, ← hp]
  simp [setComponents]

theorem Current.nodup : (allMembers p.components.toList).Nodup :=
  (allMembers_ofRoots h.components).1

theorem Current.retained_root {d : DefnId} (hd : d ∈ p.entrypoints) (hdef : p.defines d = true) :
    p.Retained d :=
  (allMembers_ofRoots h.components).2.1 d (mem_filter.mpr ⟨hd, hdef⟩)

theorem Current.retained_callee {d e : DefnId} {cs : List DefnId} (hd : p.Retained d)
    (hcs : p.callees d = .ok cs) (he : e ∈ cs) : p.Retained e := by
  obtain ⟨cs', hcs', hall⟩ := (allMembers_ofRoots h.components).2.2 d hd
  obtain rfl := Except.ok.inj (hcs.symm.trans hcs')
  exact hall e he

theorem Current.callees {d : DefnId} (hd : p.Retained d) :
    ∃ cs, p.callees d = .ok cs := by
  obtain ⟨cs, hcs, -⟩ := (allMembers_ofRoots h.components).2.2 d hd
  exact ⟨cs, hcs⟩

theorem Current.retained_of_code {b : BlockId} {block : Block} {e : DefnId}
    (hb : p.Retained (.block b)) (hblock : p.blocks[b.index]? = some block)
    (he : e ∈ block.code.refs) : p.Retained e :=
  h.retained_callee hb (map_eq_ok_iff.mpr ⟨block, block_eq_ok_iff.mpr hblock, rfl⟩)
    (mem_distinct.mpr he)

theorem Current.retained_of_closure {k : ClosureId} {closure : Closure} {e : DefnId}
    (hk : p.Retained (.closure k)) (hclosure : p.closures[k.index]? = some closure)
    (he : e ∈ closure.tail.refs) : p.Retained e :=
  h.retained_callee hk (map_eq_ok_iff.mpr ⟨closure, closure_eq_ok_iff.mpr hclosure, rfl⟩)
    (mem_distinct.mpr he)

theorem Current.retained_of_top {t : TopId} {top : TopLevel} {e : DefnId} (ht : p.Retained (.top t))
    (htop : p.tops[t.index]? = some top) (he : e ∈ top.tail.refs) :
    p.Retained e :=
  h.retained_callee ht (map_eq_ok_iff.mpr ⟨top, top_eq_ok_iff.mpr htop, rfl⟩) (mem_distinct.mpr he)

end Program

end MonadicIR
