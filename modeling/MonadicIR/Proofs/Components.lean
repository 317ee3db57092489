import MonadicIR.Proofs.Retained

namespace MonadicIR

open Graph List

namespace Program

variable (p : Program)

/-- Does the first definition refer to the second? -/
def Refers (d e : DefnId) : Prop := ∃ callees, p.callees d = .ok callees ∧ e ∈ callees

/-- Does a chain of references, which may be empty, go from the first definition to the second? -/
abbrev LeadsTo : DefnId → DefnId → Prop := Relation.ReflTransGen p.Refers

/-- Is the definition one of the roots, or does one of them lead to it? -/
def ReachedFrom (roots : List DefnId) (d : DefnId) : Prop := ∃ root ∈ roots, p.LeadsTo root d

variable {p} {e : DefnId}

theorem SameBodies.refers {q : Program} (h : SameBodies p q) : q.Refers = p.Refers := by
  funext d e
  simp only [Refers, h.callees]

theorem refers_block_iff {b : BlockId} :
    p.Refers (.block b) e ↔ ∃ block, p.blocks[b.index]? = some block ∧ e ∈ block.code.refs := by
  simp only [Refers, callees, map_eq_ok_iff, block_eq_ok_iff]
  constructor
  · rintro ⟨_, ⟨block, hb, h⟩, he⟩
    exact ⟨block, hb, mem_distinct.mp (h ▸ he)⟩
  · rintro ⟨block, hb, he⟩
    exact ⟨_, ⟨block, hb, rfl⟩, mem_distinct.mpr he⟩

theorem refers_closure_iff {k : ClosureId} :
    p.Refers (.closure k) e ↔ ∃ closure, p.closures[k.index]? = some closure ∧
      e ∈ closure.tail.refs := by
  simp only [Refers, callees, map_eq_ok_iff, closure_eq_ok_iff]
  constructor
  · rintro ⟨_, ⟨closure, hk, h⟩, he⟩
    exact ⟨closure, hk, mem_distinct.mp (h ▸ he)⟩
  · rintro ⟨closure, hk, he⟩
    exact ⟨_, ⟨closure, hk, rfl⟩, mem_distinct.mpr he⟩

theorem refers_top_iff {t : TopId} :
    p.Refers (.top t) e ↔ ∃ top, p.tops[t.index]? = some top ∧ e ∈ top.tail.refs := by
  simp only [Refers, callees, map_eq_ok_iff, top_eq_ok_iff]
  constructor
  · rintro ⟨_, ⟨top, ht, h⟩, he⟩
    exact ⟨top, ht, mem_distinct.mp (h ▸ he)⟩
  · rintro ⟨top, ht, he⟩
    exact ⟨_, ⟨top, ht, rfl⟩, mem_distinct.mpr he⟩

theorem defines_iff_callees {d : DefnId} : p.defines d = true ↔ ∃ callees,
    p.callees d = .ok callees := by
  refine ⟨fun h => ?_, fun ⟨_, h⟩ => defines_of_callees h⟩
  cases d with
  | block b =>
    obtain ⟨block, hb⟩ := defines_block_iff.mp h
    exact ⟨_, map_eq_ok_iff.mpr ⟨block, block_eq_ok_iff.mpr hb, rfl⟩⟩
  | closure k =>
    obtain ⟨closure, hk⟩ := defines_closure_iff.mp h
    exact ⟨_, map_eq_ok_iff.mpr ⟨closure, closure_eq_ok_iff.mpr hk, rfl⟩⟩
  | top t =>
    obtain ⟨top, ht⟩ := defines_top_iff.mp h
    exact ⟨_, map_eq_ok_iff.mpr ⟨top, top_eq_ok_iff.mpr ht, rfl⟩⟩

end Program

namespace Visited

variable {α : Type} [Ord α] {next : α → List α} {v v1 v2 : Visited α} {a : α} {as : List α}

/-- The items that are met from the first one without passing a visited one. -/
abbrev Meets (next : α → List α) (v : Visited α) : α → α → Prop :=
  Relation.ReflTransGen fun x y => y ∈ next x ∧ y ∉ v.items

/-- What a complete search from some items does: it adds them and what is met from them, and goes on
from everything that it adds. -/
structure Searches (next : α → List α) (as : List α) (v v' : Visited α) : Prop where
  grows : Extends v v'
  starts : ∀ a ∈ as, a ∈ v'.items
  meets : ∀ b ∈ v'.items, b ∈ v.items ∨ ∃ a ∈ as, a ∉ v.items ∧ v.Meets next a b
  closed : ∀ b ∈ v'.items, b ∈ v.items ∨ ∀ c ∈ next b, c ∈ v'.items

theorem Extends.meets (h : Extends v v1) {b : α} (hab : v1.Meets next a b) : v.Meets next a b :=
  Relation.ReflTransGen.mono (fun _ _ hxy => ⟨hxy.1, fun hv => hxy.2 (h.suffix.subset hv)⟩) a b hab

theorem Searches.nothing (hv : v.items.Nodup) (has : ∀ a ∈ as, a ∈ v.items) :
    Searches next as v v :=
  ⟨.refl hv, has, fun _ => .inl, fun _ => .inl⟩

theorem Searches.cons (h : Searches next [a] v v1) (h' : Searches next as v1 v2) :
    Searches next (a :: as) v v2 where
  grows := h.grows.trans h'.grows
  starts := by
    rintro b (_ | ⟨_, hb⟩)
    · exact h'.grows.suffix.subset (h.starts a (.head ..))
    · exact h'.starts b hb
  meets b hb := by
    obtain hb | ⟨x, hx, hnew, hmet⟩ := h'.meets b hb
    · refine (h.meets b hb).imp_right fun ⟨x, hx, hmet⟩ => ⟨x, ?_, hmet⟩
      exact mem_singleton.mp hx ▸ .head ..
    · exact .inr ⟨x, .tail _ hx, fun hv => hnew (h.grows.suffix.subset hv),
        h.grows.meets hmet⟩
  closed b hb := by
    obtain hb | hb := h'.closed b hb
    · exact (h.closed b hb).imp_right fun hall c hc => h'.grows.suffix.subset (hall c hc)
    · exact .inr hb

variable [Std.TransOrd α] [Std.LawfulEqOrd α] {items : List α}

theorem Searches.enter (hv : v.items.Nodup) (ha : a ∉ v.items)
    (h : Searches next (next a) (v.insert a) v1) : Searches next [a] v v1 := by
  have hins : Extends v (v.insert a) :=
    ⟨suffix_cons a v.items, nodup_cons.mpr ⟨ha, hv⟩⟩
  have hmem : a ∈ v1.items := h.grows.suffix.subset (.head ..)
  refine ⟨hins.trans h.grows, by simpa using hmem, fun b hb => ?_, fun b hb => ?_⟩
  · obtain (_ | ⟨_, hb⟩) | ⟨x, hx, hnew, hmet⟩ := h.meets b hb
    · exact .inr ⟨a, .head .., ha, .refl⟩
    · exact .inl hb
    · have hstep : x ∈ next a ∧ x ∉ v.items := ⟨hx, fun hv => hnew (hins.suffix.subset hv)⟩
      exact .inr ⟨a, .head .., ha, .head hstep (hins.meets hmet)⟩
  · obtain (_ | ⟨_, hb⟩) | hb := h.closed b hb
    · exact .inr h.starts
    · exact .inl hb
    · exact .inr hb

def left (v : Visited α) (items : List α) : Nat := items.countP (!v.contains ·)

omit [Std.TransOrd α] [Std.LawfulEqOrd α] in
theorem Extends.left_le (h : Extends v v1) (items : List α) : v1.left items ≤ v.left items := by
  refine List.countP_mono_left fun x _ hx => ?_
  simp only [Bool.not_eq_true', Bool.eq_false_iff, ne_eq, contains_iff] at hx ⊢
  exact fun hv => hx (h.suffix.subset hv)

theorem left_insert_lt (ha : a ∈ items) (hnew : a ∉ v.items) :
    (v.insert a).left items < v.left items := by
  have hold : v.contains a = false := by simpa [← contains_iff] using hnew
  have hadded : (v.insert a).contains a = true := contains_iff.mpr (.head ..)
  have hother {x : α} (hx : x ≠ a) : (v.insert a).contains x = v.contains x := by
    rw [Bool.eq_iff_iff, contains_iff, contains_iff]
    simp [insert, hx]
  have hle (xs : List α) : (v.insert a).left xs ≤ v.left xs := by
    refine countP_mono_left fun x _ hx => ?_
    by_cases hxa : x = a
    · simp [hxa, hadded] at hx
    · rwa [← hother hxa]
  obtain ⟨xs, ys, rfl⟩ := append_of_mem ha
  have hxs := hle xs
  have hys := hle ys
  simp only [left, countP_append, countP_cons, hold, hadded] at hxs hys ⊢
  simp only [Bool.not_false, Bool.not_true, if_true, Bool.false_eq_true, if_false]
  omega

theorem Searches.foldl {fuel : Nat}
    (h : ∀ v a, v.items.Nodup → a ∈ items → v.left items < fuel → Searches next [a] v
      (v.explore next fuel a))
    (hv : v.items.Nodup) (has : ∀ a ∈ as, a ∈ items) (hfuel : v.left items < fuel) :
    Searches next as v (as.foldl (explore next fuel) v) := by
  induction as generalizing v with
  | nil => exact .nothing hv (by simp)
  | cons a as ih =>
    have ha := h v a hv (has a (.head ..)) hfuel
    refine ha.cons (ih ha.grows.nodup (fun x hx => has x (.tail _ hx)) ?_)
    exact lt_of_le_of_lt (ha.grows.left_le items) hfuel

theorem searches_explore (hnext : ∀ x, ∀ y ∈ next x, y ∈ items) (fuel : Nat) (v : Visited α) (a : α)
    (hv : v.items.Nodup) (ha : a ∈ items) (hfuel : v.left items < fuel) :
    Searches next [a] v (v.explore next fuel a) := by
  induction fuel generalizing v a with
  | zero => omega
  | succ fuel ih =>
    unfold explore
    split
    · rename_i hold
      exact .nothing hv (by simpa using contains_iff.mp hold)
    · rename_i hnew
      have hnew' : a ∉ v.items := mt contains_iff.mpr hnew
      have hlt := left_insert_lt ha hnew'
      exact .enter hv hnew'
        (.foldl ih (nodup_cons.mpr ⟨hnew', hv⟩) (hnext a) (by omega))

end Visited

namespace Component

variable {p : Program} {fuel : Nat}

theorem foldlM_error {ε σ α : Type} {f : σ → α → Except ε σ} {items : List α} {s : σ} {e : ε}
    (h : items.foldlM f s = .error e) : ∃ a ∈ items, ∃ s', f s' a = .error e := by
  induction items generalizing s with
  | nil => cases h
  | cons a items ih =>
    rw [foldlM_cons] at h
    cases hfa : f s a with
    | error e' =>
      rw [hfa] at h
      obtain rfl := Except.error.inj h
      exact ⟨a, .head .., s, hfa⟩
    | ok s1 =>
      rw [hfa] at h
      obtain ⟨b, hb, s', hfb⟩ := ih h
      exact ⟨b, .tail _ hb, s', hfb⟩

theorem visit_error {s : Search} {d : DefnId} {f : Fault} (h : visit p fuel s d = .error f) :
    ∃ e, p.LeadsTo d e ∧ p.defines e = false := by
  induction fuel generalizing s d f with
  | zero => cases h
  | succ fuel ih =>
    unfold visit at h
    split at h
    · cases h
    · cases hcs : p.callees d with
      | error =>
        refine ⟨d, .refl, Bool.eq_false_iff.mpr fun hdef => ?_⟩
        obtain ⟨cs, hok⟩ := Program.defines_iff_callees.mp hdef
        rw [hok] at hcs
        cases hcs
      | ok cs =>
        rw [hcs] at h
        cases hfold : cs.foldlM (visit p fuel) { s with visited := s.visited.insert d } with
        | error f' =>
          obtain ⟨c, hc, s', hvisit⟩ := foldlM_error hfold
          obtain ⟨e, hce, he⟩ := ih hvisit
          exact ⟨e, .head ⟨cs, hcs, hc⟩ hce, he⟩
        | ok s1 =>
          simp only [bind, Except.bind, hfold] at h
          cases h

/-- The finishing order: below a definition come first definitions that it leads to, and then ones
that refer to none of them. -/
def InOrder (p : Program) : List (DefnId × List DefnId) → Prop
  | [] => True
  | node :: nodes => InOrder p nodes ∧ ∃ below old, nodes = below ++ old ∧
      (∀ e ∈ below, p.LeadsTo node.1 e.1) ∧ ∀ e ∈ old, ∀ c ∈ e.2, c ∉ (node :: below).map Prod.fst

/-- What the first search from some definitions adds to those that are finished. -/
structure Search.Adds (p : Program) (ds : List DefnId) (s s' : Search) : Prop where
  inOrder : InOrder p s.finished → InOrder p s'.finished
  finished : ∃ new, s'.finished = new ++ s.finished ∧
    ∀ e ∈ new, p.ReachedFrom ds e.1 ∧ e.1 ∉ s.visited

theorem Search.Adds.fold {pending : List DefnId}
    (h : ∀ ⦃s s' d⦄, s.Valid p pending → (s.left p).length < fuel → visit p fuel s d = .ok s' →
      Search.Adds p [d] s s')
    {s s' : Search} {ds : List DefnId} (hs : s.Valid p pending) (hfuel : (s.left p).length < fuel)
    (hfold : ds.foldlM (visit p fuel) s = .ok s') : Search.Adds p ds s s' := by
  induction ds generalizing s with
  | nil =>
    obtain rfl := Except.ok.inj hfold
    exact ⟨id, [], rfl, by simp⟩
  | cons d ds ih =>
    rw [foldlM_cons] at hfold
    obtain ⟨s1, h1, hrest⟩ := bind_eq_ok_iff.mp hfold
    obtain ⟨hs1, hsub, -⟩ := explores pending fuel hs hfuel h1
    obtain ⟨hord1, new1, hnew1, hall1⟩ := h hs hfuel h1
    obtain ⟨hord2, new2, hnew2, hall2⟩ :=
      ih hs1 (lt_of_le_of_lt (Search.left_length_le hsub) hfuel) hrest
    refine ⟨hord2 ∘ hord1, new2 ++ new1, by rw [hnew2, hnew1, append_assoc], fun e he => ?_⟩
    obtain he | he := mem_append.mp he
    · obtain ⟨⟨x, hx, hxe⟩, hnew⟩ := hall2 e he
      exact ⟨⟨x, .tail _ hx, hxe⟩, fun hv => hnew (hsub _ hv)⟩
    · obtain ⟨⟨x, hx, hxe⟩, hnew⟩ := hall1 e he
      exact ⟨⟨x, mem_singleton.mp hx ▸ .head .., hxe⟩, hnew⟩

theorem visit_adds {pending : List DefnId} ⦃s s' : Search⦄ ⦃d : DefnId⦄ (hs : s.Valid p pending)
    (hfuel : (s.left p).length < fuel) (h : visit p fuel s d = .ok s') :
    Search.Adds p [d] s s' := by
  induction fuel generalizing pending s s' d with
  | zero => omega
  | succ fuel ih =>
    unfold visit at h
    split at h
    · obtain rfl := Except.ok.inj h
      exact ⟨id, [], rfl, by simp⟩
    · rename_i hd
      obtain ⟨cs, hcs, h⟩ := bind_eq_ok_iff.mp h
      obtain ⟨s1, hfold, h⟩ := bind_eq_ok_iff.mp h
      obtain rfl := Except.ok.inj h
      have hfuel' := Search.left_length_lt
        (Program.mem_allDefns.mpr (Program.defines_of_callees hcs)) hd
      obtain ⟨hord, new, hnew, hall⟩ := Search.Adds.fold ih (hs.visiting d) (by omega) hfold
      have hleads : ∀ e ∈ new, p.LeadsTo d e.1 := fun e he => by
        obtain ⟨c, hc, hce⟩ := (hall e he).1
        exact .head ⟨cs, hcs, hc⟩ hce
      have hfresh : ∀ e ∈ new, e.1 ≠ d ∧ e.1 ∉ s.visited := fun e he => by
        simpa [Std.TreeSet.mem_insert, Std.compare_eq_iff_eq, eq_comm (a := d)] using (hall e he).2
      refine ⟨fun hs' => ⟨hord hs', new, s.finished, hnew, hleads, ?_⟩,
        (d, cs) :: new, by rw [hnew]; rfl, ?_⟩
      · -- What was finished before refers to visited definitions only.
        intro e he c hc hmem
        have hvisited := hs.closed e he c hc
        simp only [map_cons, mem_cons, mem_map] at hmem
        obtain rfl | ⟨x, hx, rfl⟩ := hmem
        · exact hd hvisited
        · exact (hfresh x hx).2 hvisited
      · rintro e (_ | ⟨_, he⟩)
        · exact ⟨⟨d, by simp, .refl⟩, hd⟩
        · exact ⟨⟨d, by simp, hleads e he⟩, (hfresh e he).2⟩

namespace Graph

theorem getD_foldl_insert {nodes : List (DefnId × List DefnId)} {ns : Neighbours} {d : DefnId}
    {cs : List DefnId} (hsame : ∀ e ∈ nodes, e.1 = d → e.2 = cs)
    (h : d ∈ nodes.map Prod.fst ∨ ns.getD d [] = cs) :
    (nodes.foldl (fun ns (d, callees) => ns.insert d callees) ns).getD d [] = cs := by
  induction nodes generalizing ns with
  | nil => exact h.resolve_left (by simp)
  | cons e nodes ih =>
    refine ih (fun x hx => hsame x (.tail _ hx)) ?_
    rw [Std.TreeMap.getD_insert]
    by_cases hd : e.1 = d
    · simp [hd, hsame e (.head ..) hd]
    · simpa [hd, Ne.symm hd] using h

theorem callees_of {nodes : List (DefnId × List DefnId)}
    (hnodes : ∀ e ∈ nodes, p.callees e.1 = .ok e.2) {d : DefnId} {cs : List DefnId}
    (hd : (d, cs) ∈ nodes) : (ofFinished nodes).callees.of d = cs := by
  refine getD_foldl_insert (fun e he hed => ?_) (.inl (mem_map_of_mem (f := Prod.fst) hd))
  have hcs := hnodes _ he
  rw [hed, hnodes _ hd] at hcs
  exact (Except.ok.inj hcs).symm

/-- Going back from the first of some definitions in finishing order, only ones are met that it
leads to. -/
theorem leadsTo_of_meets {all nodes : List (DefnId × List DefnId)} {node : DefnId × List DefnId}
    {seen : Visited DefnId} (horder : InOrder p (node :: nodes))
    (hrest : ∀ e ∈ all, e.1 ∉ seen.items → e ∈ node :: nodes) {d : DefnId}
    (hmet : seen.Meets (ofFinished all).callers.of node.1 d) : p.LeadsTo node.1 d := by
  obtain ⟨-, below, old, rfl, hbelow, hold⟩ := horder
  have hmem : d ∈ (node :: below).map Prod.fst := by
    induction hmet with
    | refl => simp
    | tail _ hstep ih =>
      obtain ⟨cs, hcs, hx⟩ := mem_callers_iff.mp hstep.1
      have hin := hrest _ hcs hstep.2
      rw [← cons_append, mem_append] at hin
      refine hin.elim (fun h => mem_map_of_mem (f := Prod.fst) h) fun h => ?_
      exact absurd ih (hold _ h _ hx)
  simp only [map_cons, mem_cons, mem_map] at hmem
  obtain rfl | ⟨e, he, rfl⟩ := hmem
  · exact .refl
  · exact hbelow e he

/-- The definitions with what they refer to, which are all among them. -/
structure Finished (p : Program) (nodes : List (DefnId × List DefnId)) : Prop where
  callees : ∀ e ∈ nodes, p.callees e.1 = .ok e.2
  closed : ∀ e ∈ nodes, ∀ c ∈ e.2, c ∈ nodes.map Prod.fst

section Groups

variable {all : List (DefnId × List DefnId)} (hall : Finished p all)

include hall

variable {d e : DefnId}

theorem Finished.mem_callers (hd : d ∈ all.map Prod.fst) (h : p.Refers d e) :
    d ∈ (ofFinished all).callers.of e := by
  obtain ⟨⟨_, cs⟩, hcs, rfl⟩ := mem_map.mp hd
  obtain ⟨cs', hcs', he⟩ := h
  obtain rfl := Except.ok.inj ((hall.callees _ hcs).symm.trans hcs')
  exact mem_callers_iff.mpr ⟨cs, hcs, he⟩

theorem Finished.refers_of_mem_callers (h : d ∈ (ofFinished all).callers.of e) :
    d ∈ all.map Prod.fst ∧ p.Refers d e := by
  obtain ⟨cs, hcs, he⟩ := mem_callers_iff.mp h
  exact ⟨mem_map_of_mem (f := Prod.fst) hcs, cs, hall.callees _ hcs, he⟩

theorem Finished.refers (hd : d ∈ all.map Prod.fst) (h : p.Refers d e) :
    e ∈ all.map Prod.fst := by
  obtain ⟨⟨_, cs⟩, hcs, rfl⟩ := mem_map.mp hd
  obtain ⟨cs', hcs', he⟩ := h
  obtain rfl := Except.ok.inj ((hall.callees _ hcs).symm.trans hcs')
  exact hall.closed _ hcs e he

theorem Finished.leadsTo (hd : d ∈ all.map Prod.fst) (h : p.LeadsTo d e) :
    e ∈ all.map Prod.fst := by
  induction h with
  | refl => exact hd
  | tail _ hstep ih => exact hall.refers ih hstep

/-- Definitions that are closed under callers hold everything that leads to one of them. -/
theorem Finished.mem_of_leadsTo {seen : Visited DefnId}
    (hseen : ∀ b ∈ seen.items, ∀ c ∈ (ofFinished all).callers.of b, c ∈ seen.items)
    (hd : d ∈ all.map Prod.fst) (h : p.LeadsTo d e) (he : e ∈ seen.items) : d ∈ seen.items := by
  induction h using Relation.ReflTransGen.head_induction_on with
  | refl => exact he
  | head hstep _ ih => exact hseen _ (ih (hall.refers hd hstep)) _ (hall.mem_callers hd hstep)

theorem Finished.leadsTo_of_meets {seen : Visited DefnId}
    (h : seen.Meets (ofFinished all).callers.of d e) : p.LeadsTo e d := by
  induction h with
  | refl => exact .refl
  | tail _ hstep ih => exact .head (hall.refers_of_mem_callers hstep.1).2 ih

/-- Every group holds exactly the definitions that lead to each other, and no group refers to an
earlier one. -/
theorem groups_complete {fuel : Nat} (hfuel : all.length < fuel + 1)
    (nodes : List (DefnId × List DefnId)) (seen : Visited DefnId) (hsub : ∀ e ∈ nodes, e ∈ all)
    (horder : InOrder p nodes) (hnodup : seen.items.Nodup)
    (hitems : ∀ d ∈ seen.items, d ∈ all.map Prod.fst)
    (hseen : ∀ b ∈ seen.items, ∀ c ∈ (ofFinished all).callers.of b, c ∈ seen.items)
    (hrest : ∀ e ∈ all, e.1 ∉ seen.items → e ∈ nodes) :
    (∀ group ∈ (ofFinished all).groups (fuel + 1) nodes seen,
      ∃ d ∈ group, ∀ e, e ∈ group ↔ p.LeadsTo d e ∧ p.LeadsTo e d) ∧
    ((ofFinished all).groups (fuel + 1) nodes seen).Pairwise fun group later =>
      ∀ d ∈ later, ∀ e ∈ group, ¬ p.Refers d e := by
  have hkeys (d : DefnId) : ∀ e ∈ (ofFinished all).callers.of d, e ∈ all.map Prod.fst := fun e he =>
    (hall.refers_of_mem_callers he).1
  induction nodes generalizing seen with
  | nil => simp [groups]
  | cons node nodes ih =>
    have hsub' : ∀ e ∈ nodes, e ∈ all := fun e he => hsub e (.tail _ he)
    have hnode : node.1 ∈ all.map Prod.fst := mem_map_of_mem (hsub _ (.head ..))
    unfold groups
    split
    · rename_i hd
      refine ih seen hsub' horder.1 hnodup hitems hseen fun e he hnew => ?_
      refine (mem_cons.mp (hrest e he hnew)).resolve_left ?_
      rintro rfl
      exact hnew (Visited.contains_iff.mp hd)
    · rename_i hd
      have hd' : node.1 ∉ seen.items := mt Visited.contains_iff.mpr hd
      have hleft : seen.left (all.map Prod.fst) < fuel + 1 :=
        lt_of_le_of_lt countP_le_length (by simpa using hfuel)
      have hsearch := Visited.searches_explore hkeys (fuel + 1) seen node.1 hnodup hnode hleft
      have hitems' := Visited.explore_forall hkeys (fuel + 1) seen node.1 hitems hnode
      generalize seen.explore (ofFinished all).callers.of (fuel + 1) node.1 = seen'
        at hsearch hitems' ⊢
      have hmem (e : DefnId) : e ∈ DefnId.sort (seen'.since seen) ↔ e ∈ seen'.items ∧
        e ∉ seen.items := by
        have hsplit := hsearch.grows.since
        have hdisjoint := hsplit ▸ hsearch.grows.nodup
        rw [nodup_append] at hdisjoint
        rw [DefnId.sort, (mergeSort_perm ..).mem_iff]
        conv_rhs => rw [hsplit, mem_append]
        exact ⟨fun he => ⟨.inl he, fun hs => hdisjoint.2.2 e he e hs rfl⟩, fun he =>
          he.1.resolve_right he.2⟩
      have hseen' : ∀ b ∈ seen'.items, ∀ c ∈ (ofFinished all).callers.of b, c ∈ seen'.items := by
        intro b hb c hc
        obtain hb | hb := hsearch.closed b hb
        · exact hsearch.grows.suffix.subset (hseen b hb c hc)
        · exact hb c hc
      have hrest' : ∀ e ∈ all, e.1 ∉ seen'.items → e ∈ nodes := fun e he hnew => by
        have hold : e.1 ∉ seen.items := fun h => hnew (hsearch.grows.suffix.subset h)
        refine (mem_cons.mp (hrest e he hold)).resolve_left ?_
        rintro rfl
        exact hnew (hsearch.starts _ (by simp))
      obtain ⟨hgroups, hpairs⟩ := ih seen' hsub' horder.1 hsearch.grows.nodup hitems' hseen' hrest'
      refine ⟨?_, pairwise_cons.mpr ⟨fun later hlater d hdl e he href => ?_, hpairs⟩⟩
      · rintro group (_ | ⟨_, hgroup⟩)
        · refine ⟨node.1, (hmem _).mpr ⟨hsearch.starts _ (by simp), hd'⟩, fun e => ?_⟩
          rw [hmem]
          constructor
          · rintro ⟨he, hnew⟩
            obtain ⟨_, h, -, hmet⟩ := (hsearch.meets e he).resolve_left hnew
            obtain rfl := mem_singleton.mp h
            exact ⟨leadsTo_of_meets horder hrest hmet, hall.leadsTo_of_meets hmet⟩
          · rintro ⟨hde, hed⟩
            refine ⟨hall.mem_of_leadsTo hseen' (hall.leadsTo hnode hde) hed
              (hsearch.starts _ (by simp)), fun he => hd' ?_⟩
            exact hall.mem_of_leadsTo hseen hnode hde he
        · exact hgroups group hgroup
      · -- The later groups are not seen yet, but callers of what is seen are.
        have hspec := (ofFinished all).groups_spec fuel hkeys nodes seen' hsearch.grows.nodup
          hitems'
          fun e he => mem_map_of_mem (hsub' e he)
        obtain ⟨hdk, hdn⟩ := hspec.1 d (mem_flatten.mpr ⟨later, hlater, hdl⟩)
        exact hdn (hseen' e ((hmem e).mp he).1 d (hall.mem_callers hdk href))

end Groups

end Graph

section Positions

variable {ps : Positions} {groups : List (List DefnId)} {members : List DefnId} {d : DefnId}
  {i j : Nat}

theorem of_getElem?_foldl_insertIfNew
    (h : (members.foldl (fun ps d => ps.insertIfNew d i) ps)[d]? = some j) :
    ps[d]? = some j ∨ d ∈ members ∧ j = i := by
  induction members generalizing ps with
  | nil => exact .inl h
  | cons e members ih =>
    obtain h | ⟨hd, hj⟩ := ih h
    · rw [Std.TreeMap.getElem?_insertIfNew] at h
      split at h
      · rename_i he
        refine .inr ⟨?_, (Option.some.inj h).symm⟩
        exact Std.compare_eq_iff_eq.mp he.1 ▸ .head ..
      · exact .inl h
    · exact .inr ⟨.tail _ hd, hj⟩

theorem mem_foldl_insertIfNew :
    d ∈ members.foldl (fun ps d => ps.insertIfNew d i) ps ↔ d ∈ members ∨ d ∈ ps := by
  induction members generalizing ps with
  | nil => simp
  | cons e members ih =>
    rw [foldl_cons, ih, Std.TreeMap.mem_insertIfNew, Std.compare_eq_iff_eq, mem_cons,
      eq_comm (a := e)]
    tauto

theorem of_getElem?_positions (h : (positions groups)[d]? = some i) :
    ∃ group, groups[i]? = some group ∧ d ∈ group := by
  have hfold (gs : List (List DefnId × Nat)) (ps : Positions)
      (h : (gs.foldl (fun ps g => g.1.foldl (fun ps d => ps.insertIfNew d g.2) ps) ps)[d]? =
        some i) :
      ps[d]? = some i ∨ ∃ g ∈ gs, g.2 = i ∧ d ∈ g.1 := by
    induction gs generalizing ps with
    | nil => exact .inl h
    | cons g gs ih =>
      obtain h | ⟨x, hx, hxi⟩ := ih _ h
      · obtain h | ⟨hd, rfl⟩ := of_getElem?_foldl_insertIfNew h
        · exact .inl h
        · exact .inr ⟨g, .head .., rfl, hd⟩
      · exact .inr ⟨x, .tail _ hx, hxi⟩
  obtain h | ⟨⟨group, _⟩, hg, rfl, hd⟩ := hfold groups.zipIdx {} h
  · simp at h
  · exact ⟨group, by simpa [mem_zipIdx_iff_getElem?] using hg, hd⟩

theorem mem_positions (h : d ∈ groups.flatten) : d ∈ positions groups := by
  have hfold (gs : List (List DefnId × Nat)) (ps : Positions)
      (h : (∃ g ∈ gs, d ∈ g.1) ∨ d ∈ ps) :
      d ∈ gs.foldl (fun ps g => g.1.foldl (fun ps d => ps.insertIfNew d g.2) ps) ps := by
    induction gs generalizing ps with
    | nil => simpa using h
    | cons g gs ih =>
      refine ih _ ?_
      rw [mem_foldl_insertIfNew]
      simp only [mem_cons, exists_eq_or_imp] at h
      obtain (h | h) | h := h
      · exact .inr (.inl h)
      · exact .inl h
      · exact .inr (.inr h)
  obtain ⟨group, hgroup, hd⟩ := mem_flatten.mp h
  obtain ⟨i, hi⟩ := mem_iff_getElem?.mp hgroup
  refine hfold groups.zipIdx {} (.inl ⟨(group, i), ?_, hd⟩)
  simpa [mem_zipIdx_iff_getElem?] using hi

theorem index_unique (hnodup : groups.flatten.Nodup) {group group' : List DefnId}
    (hi : groups[i]? = some group) (hj : groups[j]? = some group') (hd : d ∈ group)
    (hd' : d ∈ group') : i = j := by
  have hdisjoint := List.pairwise_iff_getElem.mp (List.nodup_flatten.mp hnodup).2
  obtain ⟨hli, rfl⟩ := List.getElem?_eq_some_iff.mp hi
  obtain ⟨hlj, rfl⟩ := List.getElem?_eq_some_iff.mp hj
  obtain hlt | heq | hlt := Nat.lt_trichotomy i j
  · exact (hdisjoint i j hli hlj hlt hd hd').elim
  · exact heq
  · exact (hdisjoint j i hlj hli hlt hd' hd).elim

theorem getElem?_positions (hnodup : groups.flatten.Nodup) :
    (positions groups)[d]? = some i ↔ ∃ group, groups[i]? = some group ∧ d ∈ group := by
  refine ⟨of_getElem?_positions, fun ⟨group, hgroup, hd⟩ => ?_⟩
  have hmem : d ∈ positions groups :=
    mem_positions (mem_flatten.mpr ⟨group, mem_of_getElem? hgroup, hd⟩)
  obtain ⟨j, hj⟩ := Option.isSome_iff_exists.mp
    ((Std.TreeMap.isSome_getElem?_eq_contains ..).trans (Std.TreeMap.mem_iff_contains.mp hmem))
  obtain ⟨group', hgroup', hd'⟩ := of_getElem?_positions hj
  rw [hj, index_unique hnodup hgroup hgroup' hd hd']

end Positions

/-- The components are the strongly connected components of what the roots lead to. -/
structure Decomposition (p : Program) (roots : List DefnId) (cs : List Component) : Prop where
  /-- No definition is listed twice. -/
  nodup : (allMembers cs).Nodup
  nonempty : ∀ c ∈ cs, c.members ≠ []
  members : ∀ d, d ∈ allMembers cs ↔ p.ReachedFrom roots d
  connected : ∀ c ∈ cs, ∀ d ∈ c.members, ∀ e, e ∈ c.members ↔ p.LeadsTo d e ∧ p.LeadsTo e d
  uses : ∀ (i : Nat) (c : Component), cs[i]? = some c → c.uses.Nodup ∧ ∀ j, j ∈ c.uses ↔
    j ≠ i ∧ ∃ c', cs[j]? = some c' ∧ ∃ d ∈ c.members, ∃ e ∈ Component.members c', p.Refers d e
  calleesFirst : ∀ (i : Nat) (c : Component), cs[i]? = some c → ∀ j ∈ c.uses, j < i
  recursive : ∀ c ∈ cs, c.recursive = true ↔ ∃ d ∈ c.members, Relation.TransGen p.Refers d d

variable {roots : List DefnId}

theorem finished_of_roots {s : Search}
    (h : roots.foldlM (visit p (p.allDefns.length + 1)) {} = .ok s) :
    Graph.Finished p s.finished ∧ InOrder p s.finished ∧
      ∀ d, d ∈ s.finished.map Prod.fst ↔ p.ReachedFrom roots d := by
  have hstart : Search.Valid p [] {} := ⟨by simp, by simp, by simp⟩
  have hfuel : (Search.left p {}).length < p.allDefns.length + 1 :=
    Nat.lt_succ_of_le (length_filter_le ..)
  obtain ⟨hs, -, hroots⟩ := (explores [] _).fold hstart hfuel h
  obtain ⟨horder, new, hnew, hreached⟩ := Search.Adds.fold visit_adds hstart hfuel h
  have hvisited (d : DefnId) (hd : d ∈ s.visited) : d ∈ s.finished.map Prod.fst :=
    (hs.visited d hd).resolve_left (by simp)
  have hfinished : Graph.Finished p s.finished :=
    ⟨hs.callees, fun e he c hc => hvisited c (hs.closed e he c hc)⟩
  refine ⟨hfinished, horder trivial, fun d => ⟨fun hd => ?_, fun ⟨root, hroot, hd⟩ => ?_⟩⟩
  · obtain ⟨e, he, rfl⟩ := mem_map.mp hd
    rw [hnew, append_nil] at he
    exact (hreached e he).1
  · exact hfinished.leadsTo (hvisited root (hroots root hroot)) hd

theorem ofRoots_error {f : Fault} (h : ofRoots p roots = .error f) :
    ∃ d, p.ReachedFrom roots d ∧ p.defines d = false := by
  unfold ofRoots at h
  cases hfold : roots.foldlM (visit p (p.allDefns.length + 1)) {} with
  | error f' =>
    obtain ⟨root, hroot, s, hvisit⟩ := foldlM_error hfold
    obtain ⟨e, hre, he⟩ := visit_error hvisit
    exact ⟨e, ⟨root, hroot, hre⟩, he⟩
  | ok s =>
    rw [hfold] at h
    cases h

theorem defines_of_ofRoots {cs : List Component} (h : ofRoots p roots = .ok cs) {d : DefnId}
    (hd : p.ReachedFrom roots d) : p.defines d = true := by
  obtain ⟨s, hfold, -⟩ := bind_eq_ok_iff.mp h
  obtain ⟨hfinished, -, hreached⟩ := finished_of_roots hfold
  obtain ⟨e, he, rfl⟩ := mem_map.mp ((hreached d).mpr hd)
  exact Program.defines_of_callees (hfinished.callees e he)

/-- Groups that hold what leads to each other, callees first. -/
structure Connected (p : Program) (nodes : List (DefnId × List DefnId))
    (groups : List (List DefnId)) : Prop where
  finished : Graph.Finished p nodes
  nodup : groups.flatten.Nodup
  members : ∀ d, d ∈ groups.flatten ↔ d ∈ nodes.map Prod.fst
  connected : ∀ group ∈ groups, ∃ d ∈ group, ∀ e, e ∈ group ↔ p.LeadsTo d e ∧ p.LeadsTo e d
  calleesFirst : groups.Pairwise fun group later => ∀ d ∈ group, ∀ e ∈ later, ¬ p.Refers d e

namespace Connected

variable {nodes : List (DefnId × List DefnId)} {groups : List (List DefnId)} {group : List DefnId}
  {d e : DefnId} {i j : Nat}

variable (h : Connected p nodes groups)

include h

theorem mutually (hg : group ∈ groups) (hd : d ∈ group) :
    e ∈ group ↔ p.LeadsTo d e ∧ p.LeadsTo e d := by
  obtain ⟨x, -, hx⟩ := h.connected group hg
  obtain ⟨hxd, hdx⟩ := (hx d).mp hd
  rw [hx e]
  exact ⟨fun he => ⟨hdx.trans he.1, he.2.trans hxd⟩, fun he => ⟨hxd.trans he.1, he.2.trans hdx⟩⟩

theorem mem_callees_of (hg : group ∈ groups) (hd : d ∈ group) :
    e ∈ (Graph.ofFinished nodes).callees.of d ↔ p.Refers d e := by
  have hmem := (h.members d).mp (mem_flatten.mpr ⟨group, hg, hd⟩)
  obtain ⟨⟨_, cs⟩, hcs, rfl⟩ := mem_map.mp hmem
  rw [Graph.callees_of h.finished.callees hcs]
  constructor
  · exact fun he => ⟨cs, h.finished.callees _ hcs, he⟩
  · rintro ⟨cs', hcs', he⟩
    obtain rfl := Except.ok.inj ((h.finished.callees _ hcs).symm.trans hcs')
    exact he

theorem mem_uses (hi : groups[i]? = some group) :
    j ∈ ((Graph.ofFinished nodes).component (positions groups) i group).uses ↔
      j ≠ i ∧ ∃ other, groups[j]? = some other ∧ ∃ d ∈ group, ∃ e ∈ other, p.Refers d e := by
  have hg := mem_of_getElem? hi
  simp only [Graph.component, mem_distinct, mem_filter, mem_filterMap, mem_flatMap,
    getElem?_positions h.nodup, bne_iff_ne]
  constructor
  · rintro ⟨⟨e, ⟨d, hd, hde⟩, other, hj, he⟩, hne⟩
    exact ⟨hne, other, hj, d, hd, e, he, (h.mem_callees_of hg hd).mp hde⟩
  · rintro ⟨hne, other, hj, d, hd, e, he, hde⟩
    exact ⟨⟨e, ⟨d, hd, (h.mem_callees_of hg hd).mpr hde⟩, other, hj, he⟩, hne⟩

theorem lt_of_mem_uses (hi : groups[i]? = some group)
    (hj : j ∈ ((Graph.ofFinished nodes).component (positions groups) i group).uses) : j < i := by
  obtain ⟨hne, other, hother, d, hd, e, he, hde⟩ := (h.mem_uses hi).mp hj
  refine (Nat.lt_or_gt_of_ne hne).resolve_right fun hlt => ?_
  obtain ⟨hli, rfl⟩ := List.getElem?_eq_some_iff.mp hi
  obtain ⟨hlj, rfl⟩ := List.getElem?_eq_some_iff.mp hother
  exact List.pairwise_iff_getElem.mp h.calleesFirst i j hli hlj hlt d hd e he hde

theorem recursive_iff (hg : group ∈ groups) (ps : Positions) :
    ((Graph.ofFinished nodes).component ps i group).recursive = true ↔
      ∃ d ∈ group, Relation.TransGen p.Refers d d := by
  simp only [Graph.component, Bool.or_eq_true, decide_eq_true_eq, any_eq_true,
    contains_iff_mem]
  constructor
  · rintro (hlen | ⟨d, hd, hself⟩)
    · -- Two members lead to each other.
      obtain ⟨d, e, hd, he, hne⟩ : ∃ d e, d ∈ group ∧ e ∈ group ∧ d ≠ e := by
        have hnodup := (nodup_flatten.mp h.nodup).1 group hg
        refine ⟨group[0], group[1], getElem_mem _, getElem_mem _, fun heq => ?_⟩
        exact absurd (hnodup.getElem_inj_iff.mp heq) (by decide)
      obtain ⟨hde, hed⟩ := (h.mutually hg hd).mp he
      obtain heq | htrans := Relation.reflTransGen_iff_eq_or_transGen.mp hde
      · exact absurd heq.symm hne
      · exact ⟨d, hd, htrans.trans_left hed⟩
    · exact ⟨d, hd, .single ((h.mem_callees_of hg hd).mp hself)⟩
  · rintro ⟨d, hd, hself⟩
    obtain ⟨e, hde, hed⟩ := Relation.TransGen.head'_iff.mp hself
    by_cases he : e = d
    · subst he
      exact .inr ⟨e, hd, (h.mem_callees_of hg hd).mpr hde⟩
    · refine .inl ?_
      have hmem : e ∈ group := (h.mutually hg hd).mpr ⟨.single hde, hed⟩
      obtain _ | ⟨x, _ | ⟨y, rest⟩⟩ := group
      · cases hd
      · exact absurd ((mem_singleton.mp hmem).trans (mem_singleton.mp hd).symm) he
      · simp

end Connected

theorem connected_of_roots {roots : List DefnId} {s : Search}
    (h : roots.foldlM (visit p (p.allDefns.length + 1)) {} = .ok s) :
    Connected p s.finished
      ((Graph.ofFinished s.finished).groups (s.finished.length + 1) s.finished {}).reverse := by
  obtain ⟨hfinished, horder, hreached⟩ := finished_of_roots h
  obtain ⟨hgroups, hpairs⟩ := Graph.groups_complete hfinished (Nat.lt_succ_self _) s.finished {}
    (fun _ => id) horder nodup_nil (by simp) (by simp) fun _ he _ => he
  obtain ⟨hkeys, hnodup, hcover⟩ := (Graph.ofFinished s.finished).groups_spec s.finished.length
    (fun d e he => (hfinished.refers_of_mem_callers he).1) s.finished {} nodup_nil (by simp)
    fun e he => mem_map_of_mem he
  have hperm := (reverse_perm
    ((Graph.ofFinished s.finished).groups (s.finished.length + 1) s.finished {})).flatten
  refine ⟨hfinished, hperm.nodup_iff.mpr hnodup, fun d => ?_, fun group hg => ?_, ?_⟩
  · rw [hperm.mem_iff]
    refine ⟨fun hd => (hkeys d hd).1, fun hd => ?_⟩
    obtain ⟨e, he, rfl⟩ := mem_map.mp hd
    exact (hcover e he).resolve_left (by simp)
  · exact hgroups group (mem_reverse.mp hg)
  · exact pairwise_reverse.mpr hpairs

theorem decomposition_ofRoots {roots : List DefnId} {cs : List Component}
    (h : ofRoots p roots = .ok cs) : Decomposition p roots cs := by
  obtain ⟨s, hfold, h⟩ := bind_eq_ok_iff.mp h
  obtain rfl := Except.ok.inj h
  have hconn := connected_of_roots hfold
  generalize ((Graph.ofFinished s.finished).groups (s.finished.length + 1) s.finished {}).reverse =
    groups at hconn ⊢
  have hget (i : Nat) (c : Component) :
      (groups.mapIdx ((Graph.ofFinished s.finished).component (positions groups)))[i]? = some c ↔
        ∃ group, groups[i]? = some group ∧
          (Graph.ofFinished s.finished).component (positions groups) i group = c := by
    simp [getElem?_mapIdx]
  have hmem {c : Component} (hc : c ∈ groups.mapIdx
      ((Graph.ofFinished s.finished).component (positions groups))) : ∃ i group, group ∈ groups ∧
        groups[i]? = some group ∧
          (Graph.ofFinished s.finished).component (positions groups) i group = c := by
    obtain ⟨i, hi⟩ := mem_iff_getElem?.mp hc
    obtain ⟨group, hg, rfl⟩ := (hget i c).mp hi
    exact ⟨i, group, mem_of_getElem? hg, hg, rfl⟩
  refine ⟨?_, fun c hc => ?_, fun d => ?_, fun c hc d hd e => ?_, fun i c hi => ⟨?_, fun j => ?_⟩,
    fun i c hi j hj => ?_, fun c hc => ?_⟩
  · rw [Graph.allMembers_mapIdx]
    exact hconn.nodup
  · obtain ⟨i, group, hg, -, rfl⟩ := hmem hc
    obtain ⟨d, hd, -⟩ := hconn.connected group hg
    exact ne_nil_of_mem hd
  · rw [Graph.allMembers_mapIdx, hconn.members, (finished_of_roots hfold).2.2]
  · obtain ⟨i, group, hg, -, rfl⟩ := hmem hc
    exact hconn.mutually hg hd
  · obtain ⟨group, -, rfl⟩ := (hget i c).mp hi
    exact nodup_distinct _
  · obtain ⟨group, hg, rfl⟩ := (hget i c).mp hi
    rw [hconn.mem_uses hg]
    refine and_congr_right fun _ => ⟨fun ⟨other, hother, hrefers⟩ => ?_, fun ⟨c', hc', hrefers⟩ =>
      ?_⟩
    · exact ⟨_, (hget j _).mpr ⟨other, hother, rfl⟩, hrefers⟩
    · obtain ⟨other, hother, rfl⟩ := (hget j c').mp hc'
      exact ⟨other, hother, hrefers⟩
  · obtain ⟨group, hg, rfl⟩ := (hget i c).mp hi
    exact hconn.lt_of_mem_uses hg hj
  · obtain ⟨i, group, hg, -, rfl⟩ := hmem hc
    exact hconn.recursive_iff hg _

theorem Decomposition.closed {roots : List DefnId} {cs : List Component}
    (h : Decomposition p roots cs)
    {d e : DefnId} (hd : d ∈ allMembers cs) (hde : p.Refers d e) : e ∈ allMembers cs := by
  obtain ⟨root, hroot, hlead⟩ := (h.members d).mp hd
  exact (h.members e).mpr ⟨root, hroot, hlead.tail hde⟩

theorem Decomposition.refers_mem {roots : List DefnId} {before after : List Component}
    (h : Decomposition p roots (before ++ after)) {d e : DefnId}
    (hd : d ∈ allMembers before) (hde : p.Refers d e) : e ∈ allMembers before := by
  obtain ⟨c, hc, hdc⟩ := List.mem_flatMap.mp hd
  obtain ⟨i, hi⟩ := List.mem_iff_getElem?.mp hc
  have hlt := (List.getElem?_eq_some_iff.mp hi).1
  have hi' : (before ++ after)[i]? = some c := by rw [List.getElem?_append_left hlt, hi]
  obtain ⟨c', hc', hec'⟩ := List.mem_flatMap.mp
    (h.closed (List.mem_flatMap.mpr ⟨c, List.mem_append_left _ hc, hdc⟩) hde)
  obtain ⟨j, hj⟩ := List.mem_iff_getElem?.mp hc'
  have hji : j ≤ i := by
    by_cases hne : j = i
    · exact Nat.le_of_eq hne
    · exact le_of_lt (h.calleesFirst i c hi' j
        (((h.uses i c hi').2 j).mpr ⟨hne, c', hj, d, hdc, e, hec', hde⟩))
  rw [List.getElem?_append_left (by omega)] at hj
  exact List.mem_flatMap.mpr ⟨c', List.mem_of_getElem? hj, hec'⟩

/-- The components of what the roots lead to can be computed exactly if all of it is there, and are
then its strongly connected components, callees first. -/
theorem ofRoots_decomposes (p : Program) (roots : List DefnId) :
    ((∃ f, ofRoots p roots = .error f) ↔ ∃ d, p.ReachedFrom roots d ∧ p.defines d = false) ∧
      ∀ cs, ofRoots p roots = .ok cs → Decomposition p roots cs := by
  refine ⟨⟨fun ⟨_, h⟩ => ofRoots_error h, fun ⟨d, hd, hmissing⟩ => ?_⟩, fun _ =>
    decomposition_ofRoots⟩
  cases h : ofRoots p roots with
  | error f => exact ⟨f, rfl⟩
  | ok cs => exact absurd (defines_of_ofRoots h hd) (by simp [hmissing])

/-- Two blocks that call each other, and a third one that ends this. -/
def alternation : Program where
  blocks := #[
    { params := [⟨1⟩]
      code := .jump ⟨⟨1⟩, [.temp ⟨1⟩]⟩ },
    { params := [⟨2⟩]
      code := .branch (.temp ⟨2⟩) ⟨⟨2⟩, []⟩ ⟨⟨0⟩, [.flag true]⟩ },
    { params := []
      code := .done (.ret [.word 1]) }]

theorem ofRoots_decomposes_alternation :
    ofRoots alternation [.block ⟨1⟩] =
        .ok [⟨[.block ⟨2⟩], false, []⟩, ⟨[.block ⟨0⟩, .block ⟨1⟩], true, [0]⟩] ∧
      Decomposition alternation [.block ⟨1⟩]
        [⟨[.block ⟨2⟩], false, []⟩, ⟨[.block ⟨0⟩, .block ⟨1⟩], true, [0]⟩] := by
  have h : ofRoots alternation [.block ⟨1⟩] =
      .ok [⟨[.block ⟨2⟩], false, []⟩, ⟨[.block ⟨0⟩, .block ⟨1⟩], true, [0]⟩] := by
    cbv
  exact ⟨h, (ofRoots_decomposes alternation [.block ⟨1⟩]).2 _ h⟩

end Component

end MonadicIR
