import MonadicIR.Algebra
import MonadicIR.Proofs.MachineRuns

namespace MonadicIR

open Option

/-- Values for atoms. Words and flags stand for themselves. -/
structure Valuation where
  of : Atom → Value
  of_word : ∀ w, of (.word w) = .word w
  of_flag : ∀ b, of (.flag b) = .flag b

namespace Valuation

attribute [simp] of_word of_flag

@[simp] theorem of_ofScalar (ρ : Valuation) (s : Scalar) : ρ.of (.ofScalar s) = .ofScalar s := by
  cases s <;> simp [Atom.ofScalar, Value.ofScalar]

theorem of_scalar (ρ : Valuation) {a : Atom} {s : Scalar} (h : a.scalar? = some s) :
    (ρ.of a).scalar? = some s := by
  cases a <;> simp_all [Atom.scalar?, Value.scalar?]

theorem mapM_of_scalar (ρ : Valuation) {args : List Atom} {xs : List Scalar}
    (h : args.mapM Atom.scalar? = some xs) : (args.map ρ.of).mapM Value.scalar? = some xs := by
  induction args generalizing xs with
  | nil => simpa using h
  | cons a args ih =>
    simp only [List.mapM_cons, bind, bind_eq_some_iff] at h
    obtain ⟨x, hx, ys, hys, h⟩ := h
    simp only [List.map_cons, List.mapM_cons, ρ.of_scalar hx, ih hys]
    exact h

end Valuation

namespace Value

theorem scalar?_eq_some_iff {v : Value} {s : Scalar} : v.scalar? = some s ↔ v = ofScalar s := by
  cases v <;> cases s <;> simp [scalar?, ofScalar]

theorem mapM_scalar?_eq_some_iff {vs : List Value} {xs : List Scalar} :
    vs.mapM scalar? = some xs ↔ vs = xs.map ofScalar := by
  induction vs generalizing xs with
  | nil => cases xs <;> simp
  | cons v vs ih => cases xs <;> simp [List.mapM_cons, bind_eq_some_iff, scalar?_eq_some_iff, ih]

@[simp] theorem ofScalar_inj {s t : Scalar} : ofScalar s = ofScalar t ↔ s = t := by
  cases s <;> cases t <;> simp [ofScalar]

end Value

namespace Prim

/-- What a pure primitive computes, where its arguments are words and flags of the right kinds. -/
def value? (q : Prim) (args : List Value) : Option Value :=
  ((args.mapM Value.scalar?).bind q.compute?).map Value.ofScalar

variable {q dual : Prim} {xs : List Scalar} {s c r : Scalar}

theorem isPure_of_compute? (h : q.compute? xs = some r) : q.purity.isPure = true := by
  cases q <;> first | rfl | cases h

theorem isPure_of_value? {args : List Value} {v : Value} (h : q.value? args = some v) :
    q.purity.isPure = true := by
  simp only [value?, map_eq_some_iff, bind_eq_some_iff] at h
  obtain ⟨r, ⟨xs, -, hr⟩, -⟩ := h
  exact isPure_of_compute? hr

theorem value?_eq_some_iff {args : List Value} {v : Value} : q.value? args = some v ↔
    ∃ xs r, args = xs.map Value.ofScalar ∧ q.compute? xs = some r ∧ v = .ofScalar r := by
  simp only [value?, map_eq_some_iff, bind_eq_some_iff, Value.mapM_scalar?_eq_some_iff]
  constructor
  · rintro ⟨r, ⟨xs, hxs, hr⟩, rfl⟩
    exact ⟨xs, r, hxs, hr, rfl⟩
  · rintro ⟨xs, r, hxs, hr, rfl⟩
    exact ⟨r, ⟨xs, hxs, hr⟩, rfl⟩

theorem value?_pair {a b v : Value} (h : q.value? [a, b] = some v) :
    ∃ x y r, a = .ofScalar x ∧ b = .ofScalar y ∧ q.compute? [x, y] = some r ∧ v = .ofScalar r := by
  obtain ⟨xs, r, hargs, hr, hv⟩ := value?_eq_some_iff.mp h
  obtain ⟨x, xs, rfl, ha, hargs⟩ := List.map_eq_cons_iff.mp hargs.symm
  obtain ⟨y, xs, rfl, hb, hargs⟩ := List.map_eq_cons_iff.mp hargs
  cases List.map_eq_nil_iff.mp hargs
  exact ⟨x, y, r, ha.symm, hb.symm, hr, hv⟩

theorem value?_single {a v : Value} (h : q.value? [a] = some v) :
    ∃ x r, a = .ofScalar x ∧ q.compute? [x] = some r ∧ v = .ofScalar r := by
  obtain ⟨xs, r, hargs, hr, hv⟩ := value?_eq_some_iff.mp h
  obtain ⟨x, xs, rfl, ha, hargs⟩ := List.map_eq_cons_iff.mp hargs.symm
  cases List.map_eq_nil_iff.mp hargs
  exact ⟨x, r, ha.symm, hr, hv⟩

theorem add_value?_word {a v : Value} {n : Word} :
    add.value? [a, .word n] = some v ↔ ∃ w, a = .word w ∧ v = .word (w + n) := by
  refine ⟨fun h => ?_, ?_⟩
  · obtain ⟨s, s', r, rfl, hs', hr, rfl⟩ := value?_pair h
    cases s <;> cases s' <;> cases hr
    obtain rfl := Value.word.inj hs'
    exact ⟨_, rfl, rfl⟩
  · rintro ⟨w, rfl, rfl⟩
    rfl

theorem sub_value?_word (a : Value) (n : Word) :
    sub.value? [a, .word n] = add.value? [a, .word (-n)] := by
  cases a with
  | word m => exact congrArg (some ∘ Value.word) (Int64.sub_eq_add_neg m n)
  | flag | data | closure | external => rfl

theorem fold?_sound (ρ : Valuation) {args : List Atom} {a : Atom} {v : Value}
    (h : q.fold? args = some a) (hv : q.value? (args.map ρ.of) = some v) : ρ.of a = v := by
  simp only [fold?, map_eq_some_iff, bind_eq_some_iff] at h
  obtain ⟨r, ⟨xs, hxs, hr⟩, rfl⟩ := h
  simpa [value?, ρ.mapM_of_scalar hxs, hr] using hv

theorem isPure_of_dual? (h : q.dual? = some dual) : q.purity.isPure = true := by
  cases q <;> first | rfl | cases h

theorem words_of_dual? (hdual : q.dual? = some dual) (h : q.compute? xs = some r) :
    ∃ m n, xs = [.word m, .word n] := by
  rcases xs with _ | ⟨x, _ | ⟨y, _ | ⟨z, zs⟩⟩⟩
  case nil => cases q <;> cases hdual <;> cases h
  case cons.nil => cases q <;> cases hdual <;> cases x <;> cases h
  case cons.cons.nil =>
    cases q <;> cases hdual <;> cases x <;> cases y <;> cases h <;> exact ⟨_, _, rfl⟩
  case cons.cons.cons => cases q <;> cases hdual <;> cases x <;> cases y <;> cases h

theorem compute?_dual (hdual : q.dual? = some dual) (h : q.compute? xs = some r) :
    ∃ b, r = .flag b ∧ dual.compute? xs = some (.flag !b) := by
  obtain ⟨m, n, rfl⟩ := words_of_dual? hdual h
  cases q <;> cases hdual <;> cases h <;> refine ⟨_, rfl, congrArg (some ∘ Scalar.flag) ?_⟩ <;>
    simp [bne, ← decide_not, Int64.not_lt, Int64.not_le]

theorem compute?_swap (hq : q.isCommutative = true) (x y : Scalar) :
    q.compute? [x, y] = q.compute? [y, x] := by
  cases q <;> cases hq <;> cases x <;> cases y <;> try rfl
  case add.refl.word.word m n => exact congrArg (some ∘ Scalar.word) (Int64.add_comm m n)
  case mul.refl.word.word m n => exact congrArg (some ∘ Scalar.word) (Int64.mul_comm m n)
  case and.refl.word.word m n => exact congrArg (some ∘ Scalar.word) (Int64.and_comm m n)
  case or.refl.word.word m n => exact congrArg (some ∘ Scalar.word) (Int64.or_comm m n)
  case xor.refl.word.word m n => exact congrArg (some ∘ Scalar.word) (Int64.xor_comm m n)
  case eq.refl.word.word => exact congrArg (some ∘ Scalar.flag) BEq.comm
  case neq.refl.word.word => exact congrArg (some ∘ Scalar.flag) bne_comm
  case band.refl.flag.flag b c => exact congrArg (some ∘ Scalar.flag) (Bool.and_comm b c)
  case bor.refl.flag.flag b c => exact congrArg (some ∘ Scalar.flag) (Bool.or_comm b c)

theorem value?_swap (hq : q.isCommutative = true) {a b v : Value} (h : q.value? [a, b] = some v) :
    q.value? [b, a] = some v := by
  obtain ⟨x, y, r, rfl, rfl, hr, rfl⟩ := value?_pair h
  exact value?_eq_some_iff.mpr ⟨[y, x], r, rfl, compute?_swap hq x y ▸ hr, rfl⟩

/-- The constant that leaves the left argument as it is. -/
def rightUnit? : Prim → Option Scalar
  | add | sub | or | xor | shl | lshr => some (.word 0)
  | mul => some (.word 1)
  | and => some (.word (-1))
  | band => some (.flag true)
  | bor => some (.flag false)
  | _ => none

/-- The constant that is the result whatever stands on its left. -/
def rightZero? : Prim → Option Scalar
  | mul | and => some (.word 0)
  | or => some (.word (-1))
  | band => some (.flag false)
  | bor => some (.flag true)
  | _ => none

def isIdempotent : Prim → Bool
  | and | or | band | bor => true
  | _ => false

/-- The constant that is the result for two equal arguments. -/
def onEqual? : Prim → Option Scalar
  | sub | xor => some (.word 0)
  | eq | lte | gte => some (.flag true)
  | neq | lt | gt => some (.flag false)
  | _ => none

theorem compute?_rightUnit (hc : q.rightUnit? = some c) (h : q.compute? [s, c] = some r) :
    r = s := by
  have hshift : shiftAmount 0 = 0 := by decide
  have hamount : Int64.toUInt64 0 = 0 := by decide
  cases q <;> cases hc <;> cases s <;> cases h <;> simp [hshift, hamount]

theorem compute?_rightZero (hc : q.rightZero? = some c) (h : q.compute? [s, c] = some r) :
    r = c := by
  cases q <;> cases hc <;> cases s <;> cases h <;> simp

theorem compute?_idempotent {s r : Scalar} (hq : q.isIdempotent = true)
    (h : q.compute? [s, s] = some r) : r = s := by
  cases q <;> cases hq <;> cases s <;> cases h <;> simp

theorem compute?_onEqual (hc : q.onEqual? = some c) (h : q.compute? [s, s] = some r) : r = c := by
  cases q <;> cases hc <;> cases s <;> cases h <;> simp

theorem compute?_involutive (hq : q = not ∨ q = neg ∨ q = bnot) {x r r' : Scalar}
    (h : q.compute? [x] = some r) (h' : q.compute? [r] = some r') : r' = x := by
  obtain rfl | rfl | rfl := hq <;> cases x <;> cases h <;> cases h' <;> simp

theorem binaryLaw?_cases {fs : Facts} {x y : Atom} {t : Tail} (h : q.binaryLaw? fs x y = some t) :
    (∃ c, q.rightUnit? = some c ∧ y = .ofScalar c ∧ t = .ret [x]) ∨
    (∃ c, q.rightZero? = some c ∧ y = .ofScalar c ∧ t = .ret [y]) ∨
    (q.isIdempotent = true ∧ x = y ∧ t = .ret [x]) ∨
    (∃ c, q.onEqual? = some c ∧ x = y ∧ t = .ret [.ofScalar c]) ∨
    (∃ n, q = add ∧ y = .word n ∧ addLaw? fs x n = some t) ∨
    (∃ n, q = sub ∧ y = .word n ∧ t = (addLaw? fs x (-n)).getD (.prim add [x, .word (-n)])) := by
  have hword {n : Word} (hn : y.word? = some n) : y = .word n := by
    cases y <;> simp_all [Atom.word?]
  unfold binaryLaw? at h
  split at h
  case h_1 =>
    split at h
    case isTrue hy => exact .inl ⟨_, rfl, hy, (Option.some.inj h).symm⟩
    case isFalse =>
      obtain ⟨n, hn, h⟩ := bind_eq_some_iff.mp h
      exact .inr (.inr (.inr (.inr (.inl ⟨n, rfl, hword hn, h⟩))))
  case h_2 =>
    split at h
    case isTrue hy => exact .inl ⟨_, rfl, hy, (Option.some.inj h).symm⟩
    case isFalse =>
      split at h
      case isTrue hxy =>
        exact .inr (.inr (.inr (.inl ⟨_, rfl, hxy, (Option.some.inj h).symm⟩)))
      case isFalse =>
        obtain ⟨n, hn, h⟩ := map_eq_some_iff.mp h
        exact .inr (.inr (.inr (.inr (.inr ⟨n, rfl, hword hn, h.symm⟩))))
  -- The rest are tests of an argument, each for one row of a table.
  all_goals
    repeat' split at h
    all_goals first
      | exact .inl ⟨_, rfl, ‹_›, (Option.some.inj h).symm⟩
      | exact .inr (.inr (.inl ⟨rfl, ‹_›, (Option.some.inj h).symm⟩))
      | exact .inr (.inr (.inr (.inl ⟨_, rfl, ‹_›, (Option.some.inj h).symm⟩)))
      | subst y; exact .inr (.inl ⟨_, rfl, rfl, (Option.some.inj h).symm⟩)
      | cases h

end Prim

/-- Does every variable that is known to hold the result of a pure primitive hold it? -/
def Facts.AgreeWith (fs : Facts) (ρ : Valuation) : Prop :=
  ∀ t q args, fs.lookupTail t = some (.prim q args) → q.purity.isPure = true →
    q.value? (args.map ρ.of) = some (ρ.of (.temp t))

/-- Does a tail give a value: as the atom that it returns, or by a pure primitive? -/
inductive Tail.Gives (ρ : Valuation) : Tail → Value → Prop where
  | ret {a v} (h : ρ.of a = v) : Gives ρ (.ret [a]) v
  | prim {q args v} (h : q.value? (args.map ρ.of) = some v) : Gives ρ (.prim q args) v

namespace Tail.Gives

variable {ρ : Valuation} {q : Prim} {x : Atom} {v : Value} {c : Scalar}

theorem of_rightUnit (hc : q.rightUnit? = some c)
    (hv : q.value? [ρ.of x, ρ.of (.ofScalar c)] = some v) : Gives ρ (.ret [x]) v := by
  obtain ⟨s, s', r, hs, hs', hr, rfl⟩ := Prim.value?_pair hv
  obtain rfl := Value.ofScalar_inj.mp ((ρ.of_ofScalar c).symm.trans hs')
  exact .ret (by rw [hs, Prim.compute?_rightUnit hc hr])

theorem of_rightZero (hc : q.rightZero? = some c)
    (hv : q.value? [ρ.of x, ρ.of (.ofScalar c)] = some v) : Gives ρ (.ret [.ofScalar c]) v := by
  obtain ⟨s, s', r, hs, hs', hr, rfl⟩ := Prim.value?_pair hv
  obtain rfl := Value.ofScalar_inj.mp ((ρ.of_ofScalar c).symm.trans hs')
  exact .ret (by rw [ρ.of_ofScalar, Prim.compute?_rightZero hc hr])

theorem of_idempotent (hq : q.isIdempotent = true)
    (hv : q.value? [ρ.of x, ρ.of x] = some v) : Gives ρ (.ret [x]) v := by
  obtain ⟨s, s', r, hs, hs', hr, rfl⟩ := Prim.value?_pair hv
  obtain rfl := Value.ofScalar_inj.mp (hs.symm.trans hs')
  exact .ret (by rw [hs, Prim.compute?_idempotent hq hr])

theorem of_onEqual (hc : q.onEqual? = some c)
    (hv : q.value? [ρ.of x, ρ.of x] = some v) : Gives ρ (.ret [.ofScalar c]) v := by
  obtain ⟨s, s', r, hs, hs', hr, rfl⟩ := Prim.value?_pair hv
  obtain rfl := Value.ofScalar_inj.mp (hs.symm.trans hs')
  exact .ret (by rw [ρ.of_ofScalar, Prim.compute?_onEqual hc hr])

theorem sumTail {base : Atom} {u n w : Word} (hbase : ρ.of base = .word u) (hsum : u + n = w) :
    Gives ρ (Prim.sumTail base n) (.word w) := by
  subst hsum
  fun_cases Prim.sumTail base n with
  | case1 w' =>
    rw [ρ.of_word, Value.word.injEq] at hbase
    exact .ret (by rw [ρ.of_word, hbase])
  | case2 => exact .ret (by rw [hbase, Int64.add_zero])
  | case3 => exact .prim (by simp [Prim.add_value?_word, hbase])

end Tail.Gives

namespace Facts

variable {fs : Facts} {ρ : Valuation} (hfs : fs.AgreeWith ρ)
include hfs

theorem of_sumOf? {t : Temp} {base : Atom} {n w : Word} (h : fs.sumOf? t = some (base, n))
    (ht : ρ.of (.temp t) = .word w) : ∃ u, ρ.of base = .word u ∧ w = u + n := by
  unfold sumOf? at h
  split at h
  case h_1 base' n' hfact =>
    obtain ⟨rfl, rfl⟩ := Prod.mk.inj (Option.some.inj h)
    have hsum := hfs _ _ _ hfact rfl
    simp only [List.map_cons, List.map_nil, ρ.of_word] at hsum
    obtain ⟨u, hu, hw⟩ := Prim.add_value?_word.mp hsum
    exact ⟨u, hu, Value.word.inj (ht.symm.trans hw)⟩
  case h_2 => cases h

theorem followSums_sound {fuel : Nat} {t : Temp} {n m w : Word} {base : Atom}
    (h : fs.followSums fuel t n = some (base, m)) (ht : ρ.of (.temp t) = .word w) :
    ∃ u, ρ.of base = .word u ∧ u + m = w + n := by
  induction fuel generalizing t n w with
  | zero => cases h
  | succ fuel ih =>
    rw [followSums] at h
    split at h
    case isTrue hn =>
      obtain ⟨rfl, rfl⟩ := Prod.mk.inj (Option.some.inj h)
      exact ⟨w, ht, by rw [hn]⟩
    case isFalse =>
      split at h
      case h_1 u k hsum =>
        obtain ⟨a, ha, rfl⟩ := of_sumOf? hfs hsum ht
        obtain ⟨b, hb, hstep⟩ := ih h ha
        exact ⟨b, hb, by rw [hstep, Int64.add_assoc]⟩
      case h_2 base' k hsum =>
        obtain ⟨rfl, rfl⟩ := Prod.mk.inj (Option.some.inj h)
        obtain ⟨a, ha, rfl⟩ := of_sumOf? hfs hsum ht
        exact ⟨a, ha, by rw [Int64.add_assoc]⟩
      case h_3 =>
        obtain ⟨rfl, rfl⟩ := Prod.mk.inj (Option.some.inj h)
        exact ⟨w, ht, rfl⟩

theorem addLaw?_sound {x : Atom} {n w : Word} {t : Tail} (h : Prim.addLaw? fs x n = some t)
    (hx : ρ.of x = .word w) : t.Gives ρ (.word (w + n)) := by
  unfold Prim.addLaw? at h
  split at h
  case h_1 u =>
    split at h
    case isTrue =>
      obtain ⟨⟨base, m⟩, hend, rfl⟩ := map_eq_some_iff.mp h
      obtain ⟨a, ha, hsum⟩ := followSums_sound hfs hend hx
      exact .sumTail ha hsum
    case isFalse => cases h
  case h_2 => cases h

end Facts

namespace Prim

variable {q : Prim} {t : Tail}

theorem negationLaw?_cases {fs : Facts} {u : Temp} (h : q.negationLaw? fs u = some t) :
    ∃ q' inner, fs.lookupTail u = some (.prim q' inner) ∧
      ((∃ a, q' = q ∧ inner = [a] ∧ t = .ret [a]) ∨
        ∃ dual, q = bnot ∧ q'.dual? = some dual ∧ t = .prim dual inner) := by
  have hdual {q' : Prim} {inner : List Atom}
      (h : (if q = bnot then q'.dual?.map fun dual => Tail.prim dual inner else none) = some t) :
      ∃ dual, q = bnot ∧ q'.dual? = some dual ∧ t = .prim dual inner := by
    split at h
    case isTrue hq =>
      obtain ⟨dual, hdual, rfl⟩ := map_eq_some_iff.mp h
      exact ⟨dual, hq, hdual, rfl⟩
    case isFalse => cases h
  unfold negationLaw? at h
  split at h
  case h_1 q' inner hfact =>
    refine ⟨q', inner, hfact, ?_⟩
    split at h
    case h_1 a =>
      split at h
      case isTrue hq => exact .inl ⟨a, hq, rfl, (Option.some.inj h).symm⟩
      case isFalse => exact .inr (hdual h)
    case h_2 => exact .inr (hdual h)
  case h_2 => cases h

variable {fs : Facts} {ρ : Valuation} (hfs : fs.AgreeWith ρ)
include hfs

theorem binaryLaw?_sound {x y : Atom} {v : Value} (h : q.binaryLaw? fs x y = some t)
    (hv : q.value? [ρ.of x, ρ.of y] = some v) : t.Gives ρ v := by
  obtain ⟨c, hc, rfl, rfl⟩ | ⟨c, hc, rfl, rfl⟩ | ⟨hq, rfl, rfl⟩ | ⟨c, hc, rfl, rfl⟩ |
    ⟨n, rfl, rfl, hlaw⟩ | ⟨n, rfl, rfl, rfl⟩ := binaryLaw?_cases h
  · exact .of_rightUnit hc hv
  · exact .of_rightZero hc hv
  · exact .of_idempotent hq hv
  · exact .of_onEqual hc hv
  · obtain ⟨w, hx, rfl⟩ := add_value?_word.mp (ρ.of_word n ▸ hv)
    exact Facts.addLaw?_sound hfs hlaw hx
  · have hsum : add.value? [ρ.of x, .word (-n)] = some v := by
      rw [← sub_value?_word, ← hv, ρ.of_word]
    obtain ⟨w, hx, rfl⟩ := add_value?_word.mp hsum
    cases hlaw : addLaw? fs x (-n) with
    | none => exact .prim (by simpa using hsum)
    | some t => exact Facts.addLaw?_sound hfs hlaw hx

theorem negationLaw?_sound {u : Temp} {v : Value} (hq : q = not ∨ q = neg ∨ q = bnot)
    (h : q.negationLaw? fs u = some t) (hv : q.value? [ρ.of (.temp u)] = some v) : t.Gives ρ v := by
  obtain ⟨q', inner, hfact, ⟨a, rfl, rfl, rfl⟩ | ⟨dual, rfl, hdual, rfl⟩⟩ := negationLaw?_cases h
  · have hpure : q'.purity.isPure = true := isPure_of_value? hv
    obtain ⟨x, r, ha, hr, hu⟩ := value?_single (hfs u _ _ hfact hpure)
    obtain ⟨r', r'', hu', hr', rfl⟩ := value?_single hv
    obtain rfl := Value.ofScalar_inj.mp (hu.symm.trans hu')
    exact .ret (by rw [ha, compute?_involutive hq hr hr'])
  · have hpure : q'.purity.isPure = true := isPure_of_dual? hdual
    obtain ⟨xs, r, hxs, hr, hu⟩ := value?_eq_some_iff.mp (hfs u _ _ hfact hpure)
    obtain ⟨b, rfl, hr'⟩ := compute?_dual hdual hr
    rw [hu] at hv
    exact .prim (value?_eq_some_iff.mpr ⟨xs, .flag !b, hxs, hr', (Option.some.inj hv).symm⟩)

theorem law?_sound {args : List Atom} {v : Value} (h : q.law? fs args = some t)
    (hv : q.value? (args.map ρ.of) = some v) : t.Gives ρ v := by
  unfold law? at h
  split at h
  case h_1 x y =>
    split at h
    case isTrue hcomm =>
      have hq : q.isCommutative = true := by simp_all
      have hswap : q.value? [ρ.of y, ρ.of x] = some v := value?_swap hq hv
      obtain rfl := Option.some.inj h
      cases hlaw : q.binaryLaw? fs y x with
      | none => exact .prim hswap
      | some t => exact binaryLaw?_sound hfs hlaw hswap
    case isFalse => exact binaryLaw?_sound hfs h hv
  case h_2 u =>
    split at h
    case isTrue hq => exact negationLaw?_sound hfs hq h hv
    case isFalse => cases h
  case h_3 => cases h

end Prim

/-- What a call is simplified to gives the value that the call computes: it returns an atom of that
value or computes it by a pure primitive. -/
theorem Prim.simplify_gives {fs : Facts} {ρ : Valuation} (hfs : fs.AgreeWith ρ) {q : Prim}
    {args : List Atom} {t : Tail} {v : Value} (h : q.simplify fs args = some t)
    (hv : q.value? (args.map ρ.of) = some v) :
    (∃ a, t = .ret [a] ∧ ρ.of a = v) ∨
      ∃ q' args', t = .prim q' args' ∧ q'.purity.isPure = true ∧
        q'.value? (args'.map ρ.of) = some v := by
  have hgives : t.Gives ρ v := by
    unfold simplify at h
    split at h
    case h_1 a hfold =>
      obtain rfl := Option.some.inj h
      exact .ret (fold?_sound ρ hfold hv)
    case h_2 => exact law?_sound hfs h hv
  cases hgives with
  | @ret a _ ha => exact .inl ⟨a, rfl, ha⟩
  | @prim q' args' _ h' => exact .inr ⟨q', args', rfl, isPure_of_value? h', h'⟩

/-- A word, the sum of it and the greatest word, and the flag of whether the sum is less. -/
def Valuation.wrapping : Valuation where
  of
    | .temp ⟨2⟩ => .word (7 + Int64.maxValue)
    | .temp ⟨3⟩ => .flag true
    | .word w => .word w
    | .flag b => .flag b
    | _ => .word 7
  of_word _ := rfl
  of_flag _ := rfl

def Facts.wrapping : Facts where
  items := [(⟨3⟩, .tail (.prim .lt [.temp ⟨2⟩, .temp ⟨1⟩])),
    (⟨2⟩, .tail (.prim .add [.temp ⟨1⟩, .word Int64.maxValue]))]

theorem Facts.agreeWith_wrapping : wrapping.AgreeWith .wrapping := by
  intro t q args h _
  by_cases h3 : t = ⟨3⟩
  · subst h3
    obtain ⟨rfl, rfl⟩ := Tail.prim.inj (Option.some.inj h)
    rfl
  by_cases h2 : t = ⟨2⟩
  · subst h2
    obtain ⟨rfl, rfl⟩ := Tail.prim.inj (Option.some.inj h)
    rfl
  · simp [lookupTail, lookup, wrapping, Ne.symm h3, Ne.symm h2] at h

theorem Prim.simplify_gives_wrapping :
    (∃ t, add.simplify .wrapping [.word 1, .temp ⟨2⟩] = some t ∧
      t = .prim add [.temp ⟨1⟩, .word Int64.minValue] ∧
      ((∃ a, t = .ret [a] ∧ Valuation.wrapping.of a = .word (7 + Int64.minValue)) ∨
        ∃ q' args', t = .prim q' args' ∧ q'.purity.isPure = true ∧
          q'.value? (args'.map Valuation.wrapping.of) = some (.word (7 + Int64.minValue)))) ∧
    ∃ t, bnot.simplify .wrapping [.temp ⟨3⟩] = some t ∧ t = .prim gte [.temp ⟨2⟩, .temp ⟨1⟩] ∧
      ((∃ a, t = .ret [a] ∧ Valuation.wrapping.of a = .flag false) ∨
        ∃ q' args', t = .prim q' args' ∧ q'.purity.isPure = true ∧
          q'.value? (args'.map Valuation.wrapping.of) = some (.flag false)) := by
  have hsum : add.simplify .wrapping [.word 1, .temp ⟨2⟩] =
      some (.prim add [.temp ⟨1⟩, .word Int64.minValue]) := by decide
  have hdual : bnot.simplify .wrapping [.temp ⟨3⟩] = some (.prim gte [.temp ⟨2⟩, .temp ⟨1⟩]) := by
    decide
  exact ⟨⟨_, hsum, rfl, simplify_gives Facts.agreeWith_wrapping hsum rfl⟩,
    ⟨_, hdual, rfl, simplify_gives Facts.agreeWith_wrapping hdual rfl⟩⟩

end MonadicIR
