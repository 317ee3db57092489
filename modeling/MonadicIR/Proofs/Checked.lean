import MonadicIR.Check
import MonadicIR.Proofs.Retained

namespace MonadicIR

def named (vars : List Temp) : List Temp := vars.filter fun t => !t.isWildcard

theorem mem_named {vars : List Temp} {t : Temp} :
    t ∈ named vars ↔ t ∈ vars ∧ t.isWildcard = false := by
  simp [named]

theorem named_append (xs ys : List Temp) : named (xs ++ ys) = named xs ++ named ys :=
  List.filter_append ..

namespace Program

variable {p : Program} {d : DefnId} {bound : List Temp} {t : Tail}

theorem bindAll_eq_ok_iff {bound bound' vars : List Temp} :
    bindAll d bound vars = .ok bound' ↔
      (named vars).Nodup ∧ (∀ t ∈ named vars, t ∉ bound) ∧ bound' = (named vars).reverse ++
        bound := by
  induction vars generalizing bound with
  | nil => simp [bindAll, named, eq_comm]
  | cons v vars ih =>
    unfold bindAll
    split
    · rename_i hv
      rw [ih]
      simp [named, hv]
    · rename_i hv
      split
      · rename_i hb
        simp_all [named]
      · rename_i hb
        rw [ih]
        simp_all [named]
        grind

theorem checkAtoms_eq_ok_iff {as : List Atom} :
    p.checkAtoms d as = .ok () ↔ ∀ a ∈ as, p.checkAtom d a = .ok () := by
  induction as with
  | nil => simp [checkAtoms]
  | cons a as ih => simp [checkAtoms, bind_eq_ok_iff, exists_unit, ih]

theorem checkCount_eq_ok_iff {site : Site} {n : Nat} {args : List Atom} :
    checkCount site n args = .ok () ↔ n = args.length := by
  simp [checkCount]

theorem checkOutputs_eq_ok_iff {site : Site} {n : Nat} :
    checkOutputs site n t = .ok () ↔ ∀ m, t.outputs? = some m → m = n := by
  unfold checkOutputs
  split <;> simp_all

theorem checkTail_eq_ok_iff :
    p.checkTail d t = .ok () ↔
      (∀ a ∈ t.atoms, p.checkAtom d a = .ok ()) ∧ p.checkShape t = .ok () := by
  simp [checkTail, bind_eq_ok_iff, exists_unit, checkAtoms_eq_ok_iff]

theorem checkCalls_eq_ok_iff {cs : List Call} :
    p.checkCalls d cs = .ok () ↔ ∀ c ∈ cs, p.checkTail d (.call c) = .ok () := by
  induction cs with
  | nil => simp [checkCalls]
  | cons c cs ih => simp [checkCalls, bind_eq_ok_iff, exists_unit, ih]

theorem checkAll_eq_ok_iff {ds : List DefnId} :
    p.checkAll ds = .ok () ↔ ∀ d ∈ ds, p.checkDefn d = .ok () := by
  induction ds with
  | nil => simp [checkAll]
  | cons d ds ih => simp [checkAll, bind_eq_ok_iff, exists_unit, ih]

theorem checkShape_call {c : Call} :
    p.checkShape (.call c) = .ok () ↔
      ∃ block, p.blocks[c.target.index]? = some block ∧ block.params.length = c.args.length := by
  simp [checkShape, bind_eq_ok_iff, block_eq_ok_iff, checkCount_eq_ok_iff]

theorem checkShape_closure {k : ClosureId} {args : List Atom} :
    p.checkShape (.closure k args) = .ok () ↔
      ∃ closure, p.closures[k.index]? = some closure ∧ closure.stored.length = args.length := by
  simp [checkShape, bind_eq_ok_iff, closure_eq_ok_iff, checkCount_eq_ok_iff]

theorem checkDefn_of_retained (h : p.check = .ok ()) (hd : p.Retained d) :
    p.checkDefn d = .ok () := by
  refine checkAll_eq_ok_iff.mp h d ?_
  unfold defns
  split
  · rename_i hempty
    simp [Retained, Component.allMembers, Array.isEmpty_iff.mp hempty] at hd
  · exact hd

theorem checkDefn_block {b : BlockId} : p.checkDefn (.block b) = .ok () ↔
    ∃ block, p.blocks[b.index]? = some block ∧ (named block.params).Nodup ∧
      p.checkCode (.block b) block.code (named block.params).reverse = .ok () := by
  simp [checkDefn, bind_eq_ok_iff, block_eq_ok_iff, bindAll_eq_ok_iff]

theorem checkDefn_closure {k : ClosureId} : p.checkDefn (.closure k) = .ok () ↔
    ∃ closure, p.closures[k.index]? = some closure ∧
      (named (closure.stored ++ closure.params)).Nodup ∧
      p.checkTail (.closure k) closure.tail = .ok () := by
  simp only [checkDefn, bind_eq_ok_iff, closure_eq_ok_iff, bindAll_eq_ok_iff, named_append,
    List.nodup_append]
  refine exists_congr fun closure => and_congr_right fun _ => ?_
  constructor
  · rintro ⟨_, ⟨hs, -, rfl⟩, _, ⟨hp, hsp, -⟩, ht⟩
    exact ⟨⟨hs, hp, fun a ha b hb hab => hsp b hb (by simpa [← hab] using ha)⟩, ht⟩
  · rintro ⟨⟨hs, hp, hsp⟩, ht⟩
    exact ⟨_, ⟨hs, by simp, rfl⟩, _, ⟨hp, fun b hb ha => hsp b (by simpa using ha) b hb rfl, rfl⟩,
      ht⟩

theorem checkDefn_top {t : TopId} : p.checkDefn (.top t) = .ok () ↔
    ∃ top, p.tops[t.index]? = some top ∧ p.checkTail (.top t) top.tail = .ok () ∧
      checkOutputs (.topLevel t) top.lhs.length top.tail = .ok () := by
  simp [checkDefn, bind_eq_ok_iff, exists_unit, top_eq_ok_iff]

theorem checkCode_done :
    p.checkCode d (.done t) bound = .ok () ↔ p.checkTail d t = .ok () := Iff.rfl

theorem checkCode_bind {vars : List Temp} {rest : Code} :
    p.checkCode d (.bind vars t rest) bound = .ok () ↔
      p.checkTail d t = .ok () ∧ checkOutputs (.binding t d) vars.length t = .ok () ∧
        (named vars).Nodup ∧ (∀ x ∈ named vars, x ∉ bound) ∧
        p.checkCode d rest ((named vars).reverse ++ bound) = .ok () := by
  simp [checkCode, bind_eq_ok_iff, exists_unit, bindAll_eq_ok_iff, and_assoc]

theorem checkCode_assert {a : Atom} {ctor : Ctor} {rest : Code} :
    p.checkCode d (.assert a ctor rest) bound = .ok () ↔
      p.checkAtom d a = .ok () ∧ ctor.check = .ok () ∧ p.checkCode d rest bound = .ok () := by
  simp [checkCode, bind_eq_ok_iff, exists_unit]

theorem checkCode_branch {test : Atom} {yes no : Call} :
    p.checkCode d (.branch test yes no) bound = .ok () ↔
      p.checkAtom d test = .ok () ∧ ∀ c ∈ [yes, no], p.checkTail d (.call c) = .ok () := by
  simp only [checkCode, bind_eq_ok_iff, exists_unit, checkCalls_eq_ok_iff]

theorem checkCode_switch {a : Atom} {alts : Alts} :
    p.checkCode d (.switch a alts) bound = .ok () ↔
      p.checkAtom d a = .ok () ∧ (∀ c ∈ alts.calls, p.checkTail d (.call c) = .ok ()) ∧
        p.checkAlts d alts = .ok () := by
  simp only [checkCode, bind_eq_ok_iff, exists_unit, checkCalls_eq_ok_iff]

theorem ctor_check_eq_ok_iff {c : Ctor} : c.check = .ok () ↔ c.inRange = true := by
  simp [Ctor.check]

theorem checkArms_eq_ok_iff {seen seen' : List Ctor} {arms : List Arm} :
    checkArms d seen arms = .ok seen' ↔ (∀ arm ∈ arms, arm.ctor.inRange = true) ∧
      (arms.Pairwise fun x y => x.ctor.same y.ctor = false) ∧
      (∀ c ∈ seen, ∀ arm ∈ arms, c.same arm.ctor = false) ∧
      seen' = (arms.map Arm.ctor).reverse ++ seen := by
  induction arms generalizing seen with
  | nil =>
    rw [checkArms, Except.ok.injEq, eq_comm]
    simp
  | cons arm arms ih =>
    simp only [checkArms, bind_eq_ok_iff, exists_unit, ctor_check_eq_ok_iff]
    split
    · rename_i hseen
      obtain ⟨c, hc, hsame⟩ := List.any_eq_true.mp hseen
      simp only [reduceCtorEq, and_false, false_iff]
      rintro ⟨-, -, hnew, -⟩
      simp [hnew c hc arm (.head ..)] at hsame
    · rename_i hseen
      have hnew : ∀ c ∈ seen, c.same arm.ctor = false := by simpa using hseen
      rw [ih]
      simp only [List.forall_mem_cons, List.pairwise_cons, List.map_cons, List.reverse_cons,
        List.append_assoc, List.singleton_append]
      grind

/-- The alternatives of a case are distinct and in range, and they are all there if no default is. -/
theorem checkAlts_eq_ok_iff {alts : Alts} :
    p.checkAlts d alts = .ok () ↔ (∀ arm ∈ alts.arms, arm.ctor.inRange = true) ∧
      (alts.arms.Pairwise fun x y => x.ctor.same y.ctor = false) ∧
      (alts.default = none → ∀ first ∈ alts.arms.head?, ∃ siblings,
        p.siblings first.ctor = .ok siblings ∧
          ∀ c ∈ siblings, ∃ arm ∈ alts.arms, arm.ctor.same c = true) := by
  obtain ⟨arms, default⟩ := alts
  simp only [checkAlts, bind_eq_ok_iff, checkArms_eq_ok_iff, List.not_mem_nil, false_implies,
    implies_true, true_and, List.append_nil]
  have hseen (c : Ctor) : ((arms.map Arm.ctor).reverse.any (·.same c) = true) ↔
      ∃ arm ∈ arms, arm.ctor.same c = true := by simp
  constructor
  · rintro ⟨_, ⟨hrange, hpairs, rfl⟩, hcover⟩
    refine ⟨hrange, hpairs, ?_⟩
    rintro rfl first hfirst
    cases arms with
    | nil => cases hfirst
    | cons arm arms =>
      obtain rfl : arm = first := by simpa using hfirst
      obtain ⟨siblings, hsiblings, hcover⟩ := bind_eq_ok_iff.mp hcover
      refine ⟨siblings, hsiblings, fun c hc => (hseen c).mp ?_⟩
      split at hcover
      · cases hcover
      · rename_i hnone
        have hc := List.find?_eq_none.mp hnone c hc
        rwa [Bool.not_eq_true', Bool.not_eq_false] at hc
  · rintro ⟨hrange, hpairs, hcover⟩
    refine ⟨_, ⟨hrange, hpairs, rfl⟩, ?_⟩
    split
    · rename_i first rest
      obtain ⟨siblings, hsiblings, hcover⟩ := hcover rfl first rfl
      refine bind_eq_ok_iff.mpr ⟨siblings, hsiblings, ?_⟩
      have hnone : siblings.find? (fun c =>
          !((first :: rest).map Arm.ctor).reverse.any (·.same c)) = none :=
        List.find?_eq_none.mpr fun c hc => by simp only [(hseen c).mpr (hcover c hc), Bool.not_true,
          Bool.false_eq_true, not_false_eq_true]
      simp only [hnone]
    · rfl

end Program

end MonadicIR
