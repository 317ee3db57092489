import MonadicIR.Optimiser.Flow
import MonadicIR.Proofs.Passes

namespace MonadicIR

theorem Atom.temp_or_not (a : Atom) : (∃ t, a = .temp t) ∨ ∀ t, a ≠ .temp t := by
  cases a <;> simp

/-- The fact is no tail that mentions the variable. -/
def Fact.Omits (f : Fact) (x : Temp) : Prop := ∀ t, f = .tail t → t.mentions x = false

namespace Facts

variable {fs fs' : Facts} {x y : Temp}

/-- The second variable is mentioned by the tail that is known of the first. -/
def Leads (fs : Facts) (x y : Temp) : Prop := ∃ t, fs.lookupTail x = some t ∧ t.mentions y = true

/-- No tail mentions its own variable, or one of which a tail was noted later. -/
structure Ordered (fs : Facts) : Prop where
  own : ∀ i ∈ fs.items, i.2.Omits i.1
  later : fs.items.Pairwise fun new old => new.2.tail?.isSome = true → old.2.Omits new.1

theorem Ordered.of_sublist (h : fs.Ordered) (hsub : fs'.items.Sublist fs.items) : fs'.Ordered :=
  ⟨fun i hi => h.own i (hsub.subset hi), h.later.sublist hsub⟩

theorem Ordered.addCtor (h : fs.Ordered) (x : Temp) (c : Ctor) : (fs.addCtor x c).Ordered := by
  unfold Facts.addCtor learn
  split
  · exact h
  · refine ⟨List.forall_mem_cons.mpr ⟨fun t ht => ?_, h.own⟩, List.pairwise_cons.mpr ⟨?_, h.later⟩⟩
    · cases ht
    · intro old _ htail
      cases htail

theorem Ordered.add (h : fs.Ordered) {t : Tail} (hown : t.mentions x = false)
    (homits : ∀ i ∈ fs.items, i.2.Omits x) : (fs.add x t).Ordered := by
  unfold Facts.add learn
  split
  · exact h
  · refine ⟨List.forall_mem_cons.mpr ⟨fun u hu => ?_, h.own⟩,
      List.pairwise_cons.mpr ⟨fun old hold _ => homits old hold, h.later⟩⟩
    obtain rfl := Fact.tail.inj hu
    exact hown

theorem omits_of_mem_kill {vars : List Temp} (hx : x ∈ vars) {i : Temp × Fact}
    (hi : i ∈ (fs.kill vars).items) : i.2.Omits x := by
  intro t ht
  have hkeep := (List.mem_filter.mp hi).2
  simp only [ht, Fact.tail?, Option.any_some, Bool.and_eq_true, Bool.not_eq_true',
    List.any_eq_false] at hkeep
  simpa using hkeep.2 x hx

theorem Ordered.factsAfter (h : fs.Ordered) (vars : List Temp) (t : Tail) :
    (Pass.factsAfter fs vars t).Ordered := by
  have hsub : (if t.hasNoEffect then fs.kill vars else (fs.kill vars).killNonPure).items.Sublist
      (fs.kill vars).items := by
    split
    · exact .refl _
    · exact List.filter_sublist
  have hrest := h.of_sublist (hsub.trans List.filter_sublist)
  unfold Pass.factsAfter
  dsimp only
  generalize (if t.hasNoEffect then fs.kill vars else (fs.kill vars).killNonPure) = rest
    at hsub hrest ⊢
  split
  · rename_i v
    split
    · rename_i hadd
      simp only [Bool.and_eq_true, Bool.not_eq_true'] at hadd
      exact hrest.add hadd.2 fun i hi => omits_of_mem_kill (List.mem_singleton_self v)
        (hsub.subset hi)
    · exact hrest
  · exact hrest

theorem mem_of_lookupTail {t : Tail} (h : fs.lookupTail x = some t) : (x, .tail t) ∈ fs.items := by
  obtain ⟨f, hf, ht⟩ := Option.bind_eq_some_iff.mp h
  obtain ⟨i, hi, rfl⟩ := Option.map_eq_some_iff.mp hf
  have hx : i.1 = x := by simpa using List.find?_some hi
  have hmem := List.mem_of_find?_eq_some hi
  obtain ⟨v, f⟩ := i
  cases f with
  | tail u =>
    obtain rfl := Option.some.inj ht
    exact hx ▸ hmem
  | ctor c => cases ht

/-- The number of facts from the one that holds of the variable on, if that is a tail. -/
def heightIn : List (Temp × Fact) → Temp → Nat
  | [], _ => 0
  | (v, f) :: older, x =>
    if v = x then (if f.tail?.isSome then older.length + 1 else 0) else heightIn older x

def height (fs : Facts) (x : Temp) : Nat := heightIn fs.items x

theorem heightIn_le (items : List (Temp × Fact)) (x : Temp) : heightIn items x ≤ items.length := by
  induction items with
  | nil => exact Nat.le_refl 0
  | cons i older ih =>
    obtain ⟨v, f⟩ := i
    rw [heightIn, List.length_cons]
    split
    · split <;> omega
    · omega

theorem Ordered.height_lt (h : fs.Ordered) (hxy : fs.Leads x y) : fs.height y < fs.height x := by
  obtain ⟨items⟩ := fs
  induction items with
  | nil =>
    obtain ⟨t, ht, -⟩ := hxy
    cases ht
  | cons i older ih =>
    obtain ⟨v, f⟩ := i
    obtain ⟨t, ht, hmention⟩ := hxy
    have hle := heightIn_le older y
    have hrest : Ordered ⟨older⟩ := h.of_sublist (List.sublist_cons_self _ _)
    by_cases hvx : v = x
    · -- The tail is the newest fact, and all other variables are at most as high as the rest.
      subst hvx
      have hf : f = .tail t := by
        cases f <;> simp_all [lookupTail, lookup, Fact.tail?]
      have hvy : v ≠ y := by
        rintro rfl
        have hown := h.own _ (List.mem_cons_self ..) t hf
        exact absurd hmention (by simp [hown])
      simp only [height, heightIn, hvy, if_false, if_true, hf, Fact.tail?, Option.isSome_some]
      omega
    · have ht' : lookupTail ⟨older⟩ x = some t := by
        simpa [lookupTail, lookup, List.find?_cons, hvx] using ht
      have hlt : heightIn older y < heightIn older x := ih hrest ⟨t, ht', hmention⟩
      simp only [height, heightIn, hvx, if_false]
      split
      · rename_i hvy
        split
        · -- A tail that is noted later is not mentioned.
          rename_i hnew
          have homits := (List.pairwise_cons.mp h.later).1 _ (mem_of_lookupTail ht') hnew t rfl
          exact absurd hmention (by simp [← hvy, homits])
        · omega
      · exact hlt

theorem Ordered.acyclic (h : fs.Ordered) (x : Temp) : ¬Relation.TransGen fs.Leads x x := by
  have hdown {y : Temp} (hxy : Relation.TransGen fs.Leads x y) : fs.height y < fs.height x := by
    induction hxy with
    | single hstep => exact h.height_lt hstep
    | tail _ hstep ih => exact (h.height_lt hstep).trans ih
  exact fun hx => Nat.lt_irrefl _ (hdown hx)

theorem leads_of_sumOf? {t u : Temp} {n : Word} (h : fs.sumOf? t = some (.temp u, n)) :
    fs.Leads t u := by
  unfold sumOf? at h
  split at h
  · rename_i base m hfact
    cases h
    exact ⟨_, hfact, by simp [Tail.mentions, Tail.temps, Tail.atoms, Atom.temp?]⟩
  · cases h

/-- The walk along known sums has an end, and more fuel than its start is high is of no use. -/
theorem Ordered.exists_sumEnd (h : fs.Ordered) (t : Temp) (n : Word) :
    ∃ r, ∀ fuel > fs.height t, fs.followSums fuel t n = some r := by
  induction hk : fs.height t using Nat.strong_induction_on generalizing t n with
  | _ k ih =>
  have hstep (r : Atom × Word) (hr : ∀ fuel ≥ k, fs.followSums (fuel + 1) t n = some r) :
      ∃ r, ∀ fuel > k, fs.followSums fuel t n = some r := by
    refine ⟨r, fun fuel hfuel => ?_⟩
    obtain ⟨fuel, rfl⟩ := Nat.exists_eq_add_of_le' (Nat.one_le_of_lt hfuel)
    exact hr fuel (Nat.le_of_lt_succ hfuel)
  by_cases hn : n = 0
  · exact hstep (.temp t, 0) fun fuel _ => by rw [followSums, if_pos hn]
  cases hsum : fs.sumOf? t with
  | none => exact hstep (.temp t, n) fun fuel _ => by simp only [followSums, if_neg hn, hsum]
  | some b =>
    obtain ⟨base, m⟩ := b
    obtain ⟨u, rfl⟩ | hbase := base.temp_or_not
    · have hlt : fs.height u < k := hk ▸ h.height_lt (leads_of_sumOf? hsum)
      obtain ⟨r, hr⟩ := ih _ hlt u (m + n) rfl
      refine hstep r fun fuel hfuel => ?_
      simp only [followSums, if_neg hn, hsum]
      exact hr fuel (Nat.lt_of_lt_of_le hlt hfuel)
    · refine hstep (base, m + n) fun fuel _ => ?_
      simp only [followSums, if_neg hn, hsum]

theorem sumEnd?_eq {t : Temp} {n : Word} {r : Atom × Word}
    (hr : ∀ fuel > fs.height t, fs.followSums fuel t n = some r) : fs.sumEnd? t n = some r := by
  have hle : fs.height t ≤ fs.size * UInt64.size :=
    Nat.le_trans (heightIn_le fs.items t) (Nat.le_mul_of_pos_right _ (by simp [UInt64.size]))
  unfold sumEnd?
  generalize fs.size * UInt64.size = k at hle ⊢
  exact hr (k + 1) (Nat.lt_succ_of_le hle)

end Facts

namespace Prim

/-- The simplification of the first call goes on with that of the second: a constant goes to the
right, a known sum takes the place of a variable, a difference becomes a sum. -/
inductive Onward (fs : Facts) : Prim × List Atom → Prim × List Atom → Prop
  | swap {p x y} (hp : p.isCommutative = true) (hx : x.isConstant = true)
    (hy : y.isConstant = false) :
      Onward fs (p, [x, y]) (p, [y, x])
  | sum {t m base n} (hm : m ≠ 0) (hsum : fs.sumOf? t = some (base, n)) :
      Onward fs (add, [.temp t, .word m]) (add, [base, .word (n + m)])
  | negate {x n} (hx : x.word? = none) (hn : n ≠ 0) :
      Onward fs (sub, [x, .word n]) (add, [x, .word (-n)])

variable {fs : Facts}

theorem Onward.acc_add (h : fs.Ordered) (x : Atom) (m : Word) :
    Acc (fun b a => Onward fs a b) (add, [x, .word m]) := by
  have hbase {x : Atom} (hx : ∀ t, x ≠ .temp t) (m : Word) :
      Acc (fun b a => Onward fs a b) (add, [x, .word m]) := by
    refine .intro _ fun b hb => ?_
    cases hb with
    | swap _ _ hy => cases hy
    | sum => exact absurd rfl (hx _)
  obtain ⟨t, rfl⟩ | hx := x.temp_or_not
  · induction hk : fs.height t using Nat.strong_induction_on generalizing t m with
    | _ k ih =>
    refine .intro _ fun b hb => ?_
    cases hb with
    | swap _ hx => cases hx
    | @sum _ _ base n _ hsum =>
      obtain ⟨u, rfl⟩ | hx := base.temp_or_not
      · exact ih _ (hk ▸ h.height_lt (Facts.leads_of_sumOf? hsum)) (n + m) u rfl
      · exact hbase hx _
  · exact hbase hx m

theorem Onward.wellFounded (h : fs.Ordered) : WellFounded fun b a => Onward fs a b := by
  refine ⟨fun a => .intro a fun b hb => ?_⟩
  cases hb with
  | @swap p x y hp hx hy =>
    refine .intro _ fun c hc => ?_
    cases hc with
    | swap _ hy' => cases hy.symm.trans hy'
    | sum hm hsum => exact Onward.acc_add h ..
    | negate => exact Onward.acc_add h ..
  | sum => exact Onward.acc_add h ..
  | negate => exact Onward.acc_add h ..

theorem fold?_of_not_constant {p : Prim} {x y : Atom} (hy : y.isConstant = false) :
    p.fold? [x, y] = none ∧ p.fold? [y, x] = none := by
  have hscalar : y.scalar? = none := by cases y <;> first | rfl | cases hy
  constructor
  · cases hx : x.scalar? <;> simp [fold?, hscalar, hx]
  · simp [fold?, hscalar]

theorem simplify_add {x : Atom} (hx : x.word? = none) (m : Word) :
    add.simplify fs [x, .word m] = if m = 0 then some (.ret [x]) else addLaw? fs x m := by
  have hfold : add.fold? [x, .word m] = none := by
    cases x <;> first | rfl | cases hx
  simp [simplify, hfold, law?, binaryLaw?, Atom.isConstant, Atom.word?]

theorem getD_simplify_add {t : Temp} {n : Word} {r : Atom × Word}
    (hr : ∀ fuel > fs.height t, fs.followSums fuel t n = some r) :
    (add.simplify fs [.temp t, .word n]).getD (.prim add [.temp t, .word n]) = sumTail r.1 r.2 := by
  have hend := hr _ (Nat.lt_succ_self _)
  rw [simplify_add rfl]
  by_cases hn : n = 0
  · rw [Facts.followSums, if_pos hn] at hend
    obtain rfl := Option.some.inj hend
    simp [sumTail, hn]
  rw [if_neg hn, addLaw?, Facts.sumEnd?_eq hr]
  cases hsum : fs.sumOf? t with
  | some b => simp
  | none =>
    simp only [Facts.followSums, if_neg hn, hsum] at hend
    obtain rfl := Option.some.inj hend
    simp [sumTail, hn]

theorem simplify_of_onward (h : fs.Ordered) {p q : Prim} {args args' : List Atom}
    (hstep : Onward fs (p, args) (q, args')) :
    p.simplify fs args = some ((q.simplify fs args').getD (.prim q args')) := by
  cases hstep with
  | @swap _ x y hp hx hy =>
    obtain ⟨hfold, hfold'⟩ := fold?_of_not_constant (p := p) (x := x) hy
    simp [simplify, hfold, hfold', law?, hp, hx, hy]
  | @sum t m base n hm hsum =>
    obtain ⟨r, hr⟩ := h.exists_sumEnd t m
    have hend := hr _ (Nat.lt_succ_self _)
    rw [simplify_add rfl, if_neg hm, addLaw?, hsum, if_pos (by rfl), Facts.sumEnd?_eq hr,
      Option.map_some]
    obtain ⟨u, rfl⟩ | hbase := base.temp_or_not
    · obtain ⟨r', hr'⟩ := h.exists_sumEnd u (n + m)
      simp only [Facts.followSums, if_neg hm, hsum] at hend
      rw [hr' _ (h.height_lt (Facts.leads_of_sumOf? hsum))] at hend
      obtain rfl := Option.some.inj hend
      rw [getD_simplify_add hr']
    · simp only [Facts.followSums, if_neg hm, hsum] at hend
      obtain rfl := Option.some.inj hend
      cases base with
      | temp u => exact absurd rfl (hbase u)
      | word w => simp [simplify, fold?, Atom.scalar?, compute?, Atom.ofScalar, sumTail]
      | flag | top | external =>
        rw [simplify_add rfl]
        simp only [sumTail]
        split <;> rfl
  | @negate x n hx hn =>
    have hfold : sub.fold? [x, .word n] = none := by
      cases x <;> first | rfl | cases hx
    have hne : -n ≠ 0 := by simpa using hn
    have hxn : x ≠ .word n := by
      rintro rfl
      cases hx
    rw [simplify_add hx, if_neg hne]
    simp [simplify, hfold, law?, binaryLaw?, isCommutative, hn, hxn, Atom.word?]

end Prim

/-- Code that is yet to be gone through, with the facts and the substitution there. -/
structure FlowPoint where
  code : Code
  facts : Facts := {}
  subst : Subst := {}
deriving DecidableEq

/-- The facts that are made use of at a point. In an arm of a case a constructor is known as well. -/
def FlowPoint.Consults (pt : FlowPoint) (fs : Facts) : Prop :=
  fs = pt.facts ∨ ∃ t ctor, fs = pt.facts.addCtor t ctor

namespace Pass

variable (o : Options) (onCopy : BlockId → Pass Unit)

/-- Goes from a statement to the next point, with what becomes of the statement. -/
def advance : FlowPoint → Pass (Option ((Code → Code) × FlowPoint))
  | ⟨.bind vars tail rest, fs, s⟩ => do
    match ← settleBind o onCopy fs vars o.attempts tail s with
    | .dropped s => return some (id, ⟨rest, fs, s⟩)
    | .kept tail s => return some (.bind vars tail, ⟨rest, factsAfter fs vars tail, s⟩)
  | ⟨.assert a ctor rest, fs, s⟩ => do
    let a := s.apply a
    if (fs.ctorOf (← get).program a).any (·.same ctor) then
      report s!"assert {a.text} {ctor.name} already known"
      return some (id, ⟨rest, fs, s⟩)
    else
      let known := match a with
        | .temp t => fs.addCtor t ctor
        | _ => fs
      return some (.assert a ctor, ⟨rest, known, s⟩)
  | _ => return none

def flowFrom (pt : FlowPoint) : Pass Code := flowCode o onCopy pt.code pt.facts pt.subst

theorem flowFrom_eq_advance (pt : FlowPoint) : flowFrom o onCopy pt =
    advance o onCopy pt >>= fun r =>
      r.elim (flowFrom o onCopy pt) fun next => next.1 <$> flowFrom o onCopy next.2 := by
  obtain ⟨code, fs, s⟩ := pt
  cases code with
  | done | branch | switch => simp [advance]
  | bind vars tail rest =>
    simp only [flowFrom, flowCode, advance, bind_assoc]
    refine bind_congr fun r => ?_
    cases r <;> simp
  | assert a ctor rest =>
    simp only [flowFrom, flowCode, advance, bind_assoc]
    refine bind_congr fun w => ?_
    split
    · simp
    · cases s.apply a <;> simp

/-- A step of the pass leads from the first point to the second. -/
def Steps (a b : FlowPoint × Workbench) : Prop :=
  ∃ wrap, advance o onCopy a.1 a.2 = .ok (some (wrap, b.1)) b.2

variable {o onCopy} {a b : FlowPoint × Workbench}

theorem Steps.flowFrom (h : Steps o onCopy a b) :
    ∃ wrap : Code → Code, Pass.flowFrom o onCopy a.1 a.2 = (wrap <$> Pass.flowFrom o onCopy b.1)
      b.2 := by
  obtain ⟨wrap, h⟩ := h
  refine ⟨wrap, ?_⟩
  rw [flowFrom_eq_advance]
  simp only [bind, EStateM.bind, h, Option.elim_some]

theorem Steps.ordered (h : Steps o onCopy a b) (ha : a.1.facts.Ordered) : b.1.facts.Ordered := by
  obtain ⟨⟨code, fs, s⟩, w⟩ := a
  obtain ⟨wrap, h⟩ := h
  cases code with
  | done | branch | switch => simp [advance] at h
  | bind vars tail rest =>
    simp only [advance, bind_ok_iff] at h
    obtain ⟨r, w1, -, h⟩ := h
    cases r with
    | dropped s' =>
      simp only [pure_ok_iff, Option.some.injEq, Prod.mk.injEq] at h
      rw [h.1.2]
      exact ha
    | kept tail' s' =>
      simp only [pure_ok_iff, Option.some.injEq, Prod.mk.injEq] at h
      rw [h.1.2]
      exact ha.factsAfter vars tail'
  | assert a ctor rest =>
    simp only [advance, bind_ok_iff] at h
    obtain ⟨w1, w2, -, h⟩ := h
    split at h
    · simp only [bind_ok_iff, pure_ok_iff, Option.some.injEq, Prod.mk.injEq] at h
      obtain ⟨-, -, -, ⟨-, hb⟩, -⟩ := h
      rw [hb]
      exact ha
    · simp only [pure_ok_iff, Option.some.injEq, Prod.mk.injEq] at h
      rw [h.1.2]
      dsimp only
      split
      · exact ha.addCtor _ ctor
      · exact ha

/-- All along the pass the facts are ordered, and the pass is where the steps have led. -/
theorem Steps.run (h : Relation.ReflTransGen (Steps o onCopy) a b) (ha : a.1.facts.Ordered) :
    b.1.facts.Ordered ∧ ∃ wrap : Code → Code,
      Pass.flowFrom o onCopy a.1 a.2 = (wrap <$> Pass.flowFrom o onCopy b.1) b.2 := by
  induction h with
  | refl => exact ⟨ha, id, by rw [id_map]⟩
  | tail _ hstep ih =>
    obtain ⟨hb, wrap, hrun⟩ := ih
    obtain ⟨wrap', hrun'⟩ := hstep.flowFrom
    refine ⟨hstep.ordered hb, wrap ∘ wrap', hrun.trans ?_⟩
    rw [comp_map]
    simp only [Functor.map, EStateM.map] at hrun' ⊢
    rw [hrun']

/-- What is known at the points of the pass never goes round. Wherever the pass over any code has
got to, starting without facts, no chain of known tails leads from a variable back to itself. So
simplification by these facts goes on finitely often from every call, with the result of the call
that it goes on with, and its walk along known sums has an end within the fuel. -/
theorem flowCode_facts_acyclic (o : Options) (onCopy : BlockId → Pass Unit) (code : Code)
    (s : Subst) (w w' : Workbench) (pt : FlowPoint)
    (h : Relation.ReflTransGen (Steps o onCopy) (⟨code, {}, s⟩, w) (pt, w')) :
    (∃ wrap : Code → Code, flowCode o onCopy code {} s w = (wrap <$> flowFrom o onCopy pt) w') ∧
    ∀ fs, pt.Consults fs → (∀ x, ¬Relation.TransGen fs.Leads x x) ∧
      (WellFounded fun b a => Prim.Onward fs a b) ∧
      (∀ p args q args', Prim.Onward fs (p, args) (q, args') →
        p.simplify fs args = some ((q.simplify fs args').getD (.prim q args'))) ∧
      ∀ t n, (fs.sumEnd? t n).isSome := by
  obtain ⟨hordered, hwrap⟩ := Steps.run h ⟨by simp, .nil⟩
  refine ⟨hwrap, fun fs hfs => ?_⟩
  have hfs : fs.Ordered := by
    obtain rfl | ⟨t, ctor, rfl⟩ := hfs
    · exact hordered
    · exact hordered.addCtor t ctor
  refine ⟨hfs.acyclic, Prim.Onward.wellFounded hfs, fun _ _ _ _ => Prim.simplify_of_onward hfs, ?_⟩
  intro t n
  obtain ⟨r, hr⟩ := hfs.exists_sumEnd t n
  rw [Facts.sumEnd?_eq hr]
  rfl

theorem Steps.of_ok {r : Option ((Code → Code) × FlowPoint)} {w : Workbench}
    (h : advance o onCopy a.1 a.2 = .ok r w)
    (hr : (r.map Prod.snd == some b.1 && w == b.2) = true) : Steps o onCopy a b := by
  simp only [Bool.and_eq_true, beq_iff_eq, Option.map_eq_some_iff] at hr
  obtain ⟨⟨⟨wrap, _⟩, rfl, rfl⟩, rfl⟩ := hr
  exact ⟨wrap, h⟩

/-- Two variables, the second computed from the first one. -/
def chained : Code :=
  .bind [⟨2⟩] (.prim .add [.temp ⟨1⟩, .word 5])
    (.bind [⟨3⟩] (.prim .neg [.temp ⟨2⟩]) (.done (.ret [.temp ⟨3⟩])))

/-- What is known after the first binding, and after the second one. -/
def betweenChained : FlowPoint where
  code := .bind [⟨3⟩] (.prim .neg [.temp ⟨2⟩]) (.done (.ret [.temp ⟨3⟩]))
  facts := ⟨[(⟨2⟩, .tail (.prim .add [.temp ⟨1⟩, .word 5]))]⟩

def afterChained : FlowPoint where
  code := .done (.ret [.temp ⟨3⟩])
  facts := ⟨(⟨3⟩, .tail (.prim .neg [.temp ⟨2⟩])) :: betweenChained.facts.items⟩

theorem flowCode_facts_acyclic_chained :
    Relation.ReflTransGen (Steps {} fun _ => pure ()) (⟨chained, {}, {}⟩, { program := {} })
      (afterChained, { program := {} }) ∧
    afterChained.facts.Leads ⟨3⟩ ⟨2⟩ ∧ afterChained.facts.Leads ⟨2⟩ ⟨1⟩ ∧
    ¬Relation.TransGen afterChained.facts.Leads ⟨3⟩ ⟨3⟩ := by
  obtain ⟨_, _, hfirst, hmid⟩ := exists_ok
    (r := advance {} (fun _ => pure ()) { code := chained } { program := {} })
    (fun r w => r.map Prod.snd == some betweenChained && w == { program := {} }) (by decide +kernel)
  obtain ⟨_, _, hsecond, hlast⟩ := exists_ok
    (r := advance {} (fun _ => pure ()) betweenChained { program := {} })
    (fun r w => r.map Prod.snd == some afterChained && w == { program := {} }) (by decide +kernel)
  have hrun : Relation.ReflTransGen (Steps {} fun _ => pure ())
    (⟨chained, {}, {}⟩, { program := {} })
      (afterChained, { program := {} }) :=
    .tail (.single (Steps.of_ok (b := (betweenChained, _)) hfirst hmid))
      (Steps.of_ok (b := (afterChained, _)) hsecond hlast)
  exact ⟨hrun, ⟨_, rfl, by decide⟩, ⟨_, rfl, by decide⟩,
    ((flowCode_facts_acyclic _ _ _ _ _ _ _ hrun).2 _ (.inl rfl)).1 ⟨3⟩⟩

end Pass

end MonadicIR
