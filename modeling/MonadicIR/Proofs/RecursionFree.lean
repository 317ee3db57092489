import MonadicIR.Proofs.Components
import MonadicIR.Proofs.Passes

namespace MonadicIR

open Component List

open Relation (ReflTransGen TransGen)

theorem Visited.mem_explore_iff {α : Type} [Ord α] [Std.TransOrd α] [Std.LawfulEqOrd α]
    {next : α → List α} {items : List α} {fuel : Nat} {a b : α}
    (hnext : ∀ x, ∀ y ∈ next x, y ∈ items) (ha : a ∈ items) (hfuel : items.length < fuel) :
    b ∈ (({} : Visited α).explore next fuel a).items ↔
      ReflTransGen (fun x y => y ∈ next x) a b := by
  have hsearch := searches_explore hnext fuel {} a nodup_nil ha
    (lt_of_le_of_lt countP_le_length hfuel)
  constructor
  · intro hb
    obtain hb | ⟨x, hx, -, hmet⟩ := hsearch.meets b hb
    · cases hb
    · obtain rfl := mem_singleton.mp hx
      exact ReflTransGen.mono (fun _ _ h => h.1) _ _ hmet
  · intro hab
    induction hab with
    | refl => exact hsearch.starts a (mem_singleton_self a)
    | tail _ hstep ih => exact (hsearch.closed _ ih).resolve_left not_mem_nil _ hstep

namespace Component

def Uses (cs : List Component) (i j : Nat) : Prop := ∃ c, cs[i]? = some c ∧ j ∈ c.uses

namespace Decomposition

variable {p : Program} {roots : List DefnId} {cs : List Component} {i j : Nat} {c c' : Component}
  {d e : DefnId}

variable (h : Decomposition p roots cs)

include h

theorem leadsTo_member (hc : c ∈ cs) (hd : d ∈ c.members) (he : e ∈ c.members) : p.LeadsTo d e :=
  ((h.connected c hc d hd e).mp he).1

theorem leadsTo_of_uses (hi : cs[i]? = some c) (hd : d ∈ c.members)
    (huses : ReflTransGen (Uses cs) i j) :
    ∃ c', cs[j]? = some c' ∧ ∀ e ∈ c'.members, p.LeadsTo d e := by
  induction huses with
  | refl => exact ⟨c, hi, fun e => h.leadsTo_member (mem_of_getElem? hi) hd⟩
  | tail _ hstep ih =>
    obtain ⟨mid, hmid, hlead⟩ := ih
    obtain ⟨_, hmid', hj⟩ := hstep
    obtain rfl := Option.mem_unique hmid hmid'
    obtain ⟨-, c', hc', x, hx, y, hy, hxy⟩ := ((h.uses _ mid hmid).2 _).mp hj
    -- Along the members of the component so far, over the reference, along those of the next one.
    refine ⟨c', hc', fun e he => ((hlead x hx).tail hxy).trans ?_⟩
    exact h.leadsTo_member (mem_of_getElem? hc') hy he

theorem uses_of_leadsTo (hi : cs[i]? = some c) (hd : d ∈ c.members) (hlead : p.LeadsTo d e) :
    ∃ j c', ReflTransGen (Uses cs) i j ∧ cs[j]? = some c' ∧ e ∈ c'.members := by
  induction hlead with
  | refl => exact ⟨i, c, .refl, hi, hd⟩
  | @tail x y hdx hxy ih =>
    obtain ⟨j, mid, huses, hj, hx⟩ := ih
    have hy : y ∈ allMembers cs :=
      h.closed (mem_flatMap.mpr ⟨mid, mem_of_getElem? hj, hx⟩) hxy
    obtain ⟨c', hc', hy⟩ := mem_flatMap.mp hy
    obtain ⟨k, hk⟩ := mem_iff_getElem?.mp hc'
    by_cases hkj : k = j
    · exact ⟨k, c', hkj ▸ huses, hk, hy⟩
    · have hstep : Uses cs j k := ⟨mid, hj, ((h.uses j mid hj).2 k).mpr ⟨hkj, c', hk, x, hx, y, hy,
        hxy⟩⟩
      exact ⟨k, c', huses.tail hstep, hk, hy⟩

theorem recursive_iff_member (hc : c ∈ cs) (hd : d ∈ c.members) :
    c.recursive = true ↔ TransGen p.Refers d d := by
  refine (h.recursive c hc).trans ⟨fun ⟨e, he, hself⟩ => ?_, fun hself => ⟨d, hd, hself⟩⟩
  exact (TransGen.trans_right (h.leadsTo_member hc hd he) hself).trans_left
    (h.leadsTo_member hc he hd)

/-- The components that one leads to are free of recursion exactly if the definitions are that its
members lead to. -/
theorem uses_free_iff (hi : cs[i]? = some c) (hd : d ∈ c.members) :
    (∀ j, ReflTransGen (Uses cs) i j → ∃ c', cs[j]? = some c' ∧ c'.recursive = false) ↔
      ∀ e, p.LeadsTo d e → ¬ TransGen p.Refers e e := by
  constructor
  · intro hfree e hlead hself
    obtain ⟨j, c', huses, hj, he⟩ := h.uses_of_leadsTo hi hd hlead
    obtain ⟨c'', hj', hrecursive⟩ := hfree j huses
    obtain rfl := Option.mem_unique hj hj'
    rw [(h.recursive_iff_member (mem_of_getElem? hj) he).mpr hself] at hrecursive
    cases hrecursive
  · intro hfree j huses
    obtain ⟨c', hj, hlead⟩ := h.leadsTo_of_uses hi hd huses
    have hc' := mem_of_getElem? hj
    obtain ⟨e, he⟩ := exists_mem_of_ne_nil _ (h.nonempty c' hc')
    refine ⟨c', hj, Bool.eq_false_iff.mpr fun hrecursive => ?_⟩
    exact hfree e (hlead e he) ((h.recursive_iff_member hc' he).mp hrecursive)

end Decomposition

end Component

namespace Program

open Component (Decomposition)

variable {p : Program} {cs : List Component} {d : DefnId}

theorem notes_setComponents (p : Program) (cs : List Component) (d : DefnId) :
    (p.setComponents cs).notes d = (p.notes d).map fun notes =>
      { notes with component := (positions (cs.map members))[d]? } := by
  rcases d with ⟨⟨i⟩⟩ | ⟨⟨i⟩⟩ | ⟨⟨i⟩⟩
  · simp only [notes, block, setComponents, mapNotes, Array.getElem?_mapIdx]
    cases p.blocks[i]? <;> rfl
  · simp only [notes, closure, setComponents, mapNotes, Array.getElem?_mapIdx]
    cases p.closures[i]? <;> rfl
  · simp only [notes, top, setComponents, mapNotes, Array.getElem?_mapIdx]
    cases p.tops[i]? <;> rfl

/-- The notes of each definition that is there give the component that it belongs to. -/
theorem Current.exists_notes (h : p.Current) (hd : p.defines d = true) :
    ∃ notes, p.notes d = .ok notes ∧
    ∀ i, notes.component = some i ↔ ∃ c, p.components[i]? = some c ∧ d ∈ c.members := by
  obtain ⟨cs, hcs, hp⟩ := h
  have hnodup : (cs.map members).flatten.Nodup := by
    rw [← flatMap_def]
    exact (decomposition_ofRoots hcs).nodup
  obtain ⟨notes, hnotes⟩ := exists_notes_iff.mpr hd
  have hset := p.notes_setComponents cs d
  rw [hp, hnotes] at hset
  have hcomponent := congrArg Notes.component (Except.ok.inj hset)
  refine ⟨notes, hnotes, fun i => ?_⟩
  rw [hcomponent, getElem?_positions hnodup, ← hp]
  simp [setComponents]

/-- The search through the components meets what the component of a definition leads to. -/
theorem mem_explore_uses {roots : List DefnId} (h : Decomposition p roots p.components.toList)
    {i j : Nat} {c : Component} (hc : p.components[i]? = some c) :
    j ∈ (({} : Visited Nat).explore (fun j => (p.components[j]?).elim [] Component.uses)
      (p.components.size + 1) i).items ↔ ReflTransGen (Component.Uses p.components.toList) i j := by
  have hnext (x : Nat) : ∀ y ∈ (p.components[x]?).elim [] Component.uses,
    y ∈ List.range p.components.size := by
    intro y hy
    cases hx : p.components[x]? with
    | none => simp [hx] at hy
    | some c =>
      rw [hx] at hy
      obtain ⟨-, c', hc', -⟩ := ((h.uses x c (by simpa using hx)).2 y).mp hy
      simpa using (List.getElem?_eq_some_iff.mp hc').1
  have hi := List.mem_range.mpr (Array.getElem?_eq_some_iff.mp hc).1
  rw [Visited.mem_explore_iff hnext hi (by simp)]
  have hstep : (fun x y => y ∈ (p.components[x]?).elim [] Component.uses) =
      Component.Uses p.components.toList := by
    funext x y
    cases hx : p.components[x]? <;> simp [Component.Uses, hx]
  rw [hstep]

theorem Current.reachesNoRecursion_iff (h : p.Current) (hd : p.defines d = true) :
    ∃ answer, p.reachesNoRecursion d = .ok answer ∧
      (answer = true ↔ p.Retained d ∧ ∀ e, p.LeadsTo d e → ¬ TransGen p.Refers e e) := by
  have hdec := decomposition_ofRoots h.components
  obtain ⟨notes, hnotes, hcomponent⟩ := h.exists_notes hd
  refine ⟨_, map_eq_ok_iff.mpr ⟨notes, hnotes, rfl⟩, ?_⟩
  cases hown : notes.component with
  | none =>
    refine iff_of_false (by simp) fun ⟨hret, _⟩ => ?_
    obtain ⟨c, hc, hdc⟩ := mem_flatMap.mp hret
    obtain ⟨i, hi⟩ := mem_iff_getElem?.mp hc
    have hsome := (hcomponent i).mpr ⟨c, by simpa using hi, hdc⟩
    rw [hown] at hsome
    cases hsome
  | some i =>
    obtain ⟨c, hc, hdc⟩ := (hcomponent i).mp hown
    have hret : p.Retained d :=
      mem_flatMap.mpr ⟨c, Array.mem_toList_iff.mpr (Array.mem_of_getElem? hc), hdc⟩
    rw [and_iff_right hret, ← hdec.uses_free_iff (by simpa using hc) hdc, all_eq_true]
    refine forall_congr' fun j => imp_congr (mem_explore_uses hdec hc) ?_
    simp [Option.any_eq_true]

end Program

namespace Edit

/-- Once the components have been computed, a definition is said to reach no recursion exactly if it
is retained and no definition that it leads to, itself among them, leads back to itself. -/
theorem computeComponents_recursion_exact {p p' : Program} {complaints : List Complaint}
    (h : computeComponents p = .ok complaints p') {d : DefnId} (hd : p'.defines d = true) :
    ∃ answer, p'.reachesNoRecursion d = .ok answer ∧
      (answer = true ↔ p'.Retained d ∧ ∀ e, p'.LeadsTo d e → ¬ TransGen p'.Refers e e) := by
  obtain ⟨cs, hcs, rfl, -⟩ := computeComponents_eq_ok h
  exact (Program.current_setComponents hcs).reachesNoRecursion_iff hd

/-- A loop that is entered through a block without recursion, a block that only calls a leaf, and a
loop that nothing leads to. -/
def recursionBelow : Program where
  temps := ⟨.replicate 3 none⟩
  blocks := #[
    { params := [], code := .done (.ret []) },
    { params := [], code := .jump ⟨⟨2⟩, []⟩ },
    { params := [], code := .jump ⟨⟨1⟩, []⟩ },
    { params := [], code := .bind [] (.call ⟨⟨0⟩, []⟩) (.jump ⟨⟨1⟩, []⟩) },
    { params := [], code := .bind [] (.call ⟨⟨0⟩, []⟩) (.jump ⟨⟨0⟩, []⟩) },
    { params := [], code := .jump ⟨⟨0⟩, []⟩ }]
  entrypoints := [.block ⟨3⟩, .block ⟨4⟩]

theorem computeComponents_recursion_exact_below : ∃ complaints p',
    computeComponents recursionBelow = .ok complaints p' ∧
    (∀ e, p'.LeadsTo (.block ⟨4⟩) e → ¬ TransGen p'.Refers e e) ∧
    p'.isRecursive (.block ⟨3⟩) = .ok false ∧
    (∃ e, p'.LeadsTo (.block ⟨3⟩) e ∧ TransGen p'.Refers e e) ∧
    ¬ p'.Retained (.block ⟨5⟩) := by
  obtain ⟨complaints, p', h, htest⟩ := exists_ok (r := computeComponents recursionBelow)
    (fun _ p' => decide (p'.defines (.block ⟨3⟩)) && decide (p'.defines (.block ⟨4⟩)) &&
      decide (p'.isRecursive (.block ⟨3⟩) = .ok false) &&
      decide (p'.reachesNoRecursion (.block ⟨3⟩) = .ok false) &&
      decide (p'.reachesNoRecursion (.block ⟨4⟩) = .ok true) &&
      decide (DefnId.block ⟨3⟩ ∈ allMembers p'.components.toList) &&
      decide (DefnId.block ⟨5⟩ ∉ allMembers p'.components.toList)) (by cbv)
  simp only [Bool.and_eq_true, decide_eq_true_eq] at htest
  obtain ⟨⟨⟨⟨⟨⟨hdef3, hdef4⟩, hflag⟩, hanswer3⟩, hanswer4⟩, hret⟩, hleft⟩ := htest
  obtain ⟨answer3, hthree, hiff3⟩ := computeComponents_recursion_exact h hdef3
  obtain ⟨answer4, hfour, hiff4⟩ := computeComponents_recursion_exact h hdef4
  obtain rfl := Except.ok.inj (hanswer3.symm.trans hthree)
  obtain rfl := Except.ok.inj (hanswer4.symm.trans hfour)
  refine ⟨complaints, p', h, (hiff4.mp rfl).2, hflag, ?_, hleft⟩
  by_contra hnone
  push Not at hnone
  exact absurd (hiff3.mpr ⟨hret, hnone⟩) (by simp)

end Edit

end MonadicIR
