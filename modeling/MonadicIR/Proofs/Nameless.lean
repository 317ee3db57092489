import MonadicIR.Alpha
import MonadicIR.Proofs.Basic

namespace MonadicIR

/-- The number of a variable where these are bound, the innermost first. -/
def Temp.number : List Temp → Temp → Nat
  | [], t => t.index
  | x :: bound, t => if t = x then 0 else number bound t + 1

/-- The part of a constructor that identifies it. -/
def Ctor.key (c : Ctor) : Ctor := ⟨c.ty, c.tag, 0, 0, ""⟩

def Atom.nameless (bound : List Temp) : Atom → Atom
  | temp t => temp ⟨t.number bound⟩
  | a => a

def Call.nameless (bound : List Temp) (c : Call) : Call :=
  ⟨c.target, c.args.map (Atom.nameless bound)⟩

def Tail.nameless (bound : List Temp) : Tail → Tail
  | data ctor args => data ctor.key (args.map (Atom.nameless bound))
  | sel ctor field a => sel ctor.key field (a.nameless bound)
  | t => t.mapAtoms (Atom.nameless bound)

def Arm.nameless (bound : List Temp) (arm : Arm) : Arm := ⟨arm.ctor.key, arm.call.nameless bound⟩

def Alts.nameless (bound : List Temp) (alts : Alts) : Alts :=
  ⟨alts.arms.map (Arm.nameless bound), alts.default.map (Call.nameless bound)⟩

/-- Of the variables that a statement binds, only how many they are is left. -/
def Code.nameless : Code → List Temp → Code
  | done t, bound => done (t.nameless bound)
  | bind vars t rest, bound =>
    bind (vars.map fun _ => .wildcard) (t.nameless bound) (rest.nameless (vars.reverse ++ bound))
  | assert a ctor rest, bound => assert (a.nameless bound) ctor.key (rest.nameless bound)
  | branch test yes no, bound =>
    branch (test.nameless bound) (yes.nameless bound) (no.nameless bound)
  | switch a alts, bound => switch (a.nameless bound) (alts.nameless bound)

def Block.nameless (b : Block) : Nat × Code := (b.params.length, b.code.nameless b.params.reverse)

def Closure.nameless (k : Closure) : Nat × Nat × Tail :=
  (k.stored.length, k.params.length, k.tail.nameless (k.params.reverse ++ k.stored.reverse))

def TopLevel.nameless (t : TopLevel) : Nat × Tail := (t.lhs.length, t.tail.nameless [])

theorem Ctor.same_iff_key {c d : Ctor} : c.same d = true ↔ c.key = d.key := by
  simp [Ctor.same_iff, Ctor.key]

namespace Pairing

/-- The variables that are bound on the left, the innermost first. -/
def left (env : Pairing) : List Temp := env.map Prod.fst

def right (env : Pairing) : List Temp := env.map Prod.snd

@[simp] theorem left_nil : left [] = [] := rfl

@[simp] theorem right_nil : right [] = [] := rfl

theorem left_bind (env : Pairing) {xs ys : List Temp} (h : xs.length = ys.length) :
    (env.bind xs ys).left = xs.reverse ++ env.left := by
  simp [left, Pairing.bind, List.map_fst_zip h.le]

theorem right_bind (env : Pairing) {xs ys : List Temp} (h : xs.length = ys.length) :
    (env.bind xs ys).right = ys.reverse ++ env.right := by
  simp [right, Pairing.bind, List.map_snd_zip h.ge]

theorem corresponds_iff (env : Pairing) (a b : Temp) :
    env.corresponds a b = true ↔ a.number env.left = b.number env.right := by
  induction env with
  | nil =>
    obtain ⟨i⟩ := a
    obtain ⟨j⟩ := b
    simp [corresponds, left, right, Temp.number]
  | cons e env ih =>
    obtain ⟨x, y⟩ := e
    simp only [left, right] at ih
    by_cases ha : a = x <;> by_cases hb : b = y <;>
      simp [corresponds, left, right, Temp.number, ha, hb, ih]

end Pairing

variable {env : Pairing}

theorem Atom.alpha_iff_nameless {a b : Atom} :
    a.alpha env b = true ↔ a.nameless env.left = b.nameless env.right := by
  cases a <;> cases b <;> simp [alpha, nameless, Pairing.corresponds_iff]

theorem Atom.alphaAll_iff_nameless {as bs : List Atom} : alphaAll env as bs = true ↔
    as.map (nameless env.left) = bs.map (nameless env.right) := by
  induction as generalizing bs with
  | nil => cases bs <;> simp [alphaAll]
  | cons a as ih => cases bs <;> simp [alphaAll, alpha_iff_nameless, ih]

theorem Call.alpha_iff_nameless {c d : Call} :
    c.alpha env d = true ↔ c.nameless env.left = d.nameless env.right := by
  simp [alpha, nameless, Atom.alphaAll_iff_nameless]

theorem Tail.alpha_iff_nameless {t u : Tail} :
    t.alpha env u = true ↔ t.nameless env.left = u.nameless env.right := by
  cases t <;> cases u <;>
    simp [alpha, nameless, mapAtoms, Atom.alpha_iff_nameless, Atom.alphaAll_iff_nameless,
      Call.alpha_iff_nameless, Call.nameless, Ctor.same_iff_key, and_assoc]

theorem Alts.alphaArms_iff_nameless {as bs : List Arm} : alphaArms env as bs = true ↔
    as.map (Arm.nameless env.left) = bs.map (Arm.nameless env.right) := by
  induction as generalizing bs with
  | nil => cases bs <;> simp [alphaArms]
  | cons a as ih =>
    cases bs <;>
      simp [alphaArms, Arm.nameless, Ctor.same_iff_key, Call.alpha_iff_nameless, ih]

theorem Alts.alpha_iff_nameless {x y : Alts} :
    x.alpha env y = true ↔ x.nameless env.left = y.nameless env.right := by
  obtain ⟨xs, c⟩ := x
  obtain ⟨ys, d⟩ := y
  cases c <;> cases d <;>
    simp [alpha, alphaDefault, nameless, alphaArms_iff_nameless, Call.alpha_iff_nameless, and_comm]

theorem Code.alpha_iff_nameless {c d : Code} :
    c.alpha d env = true ↔ c.nameless env.left = d.nameless env.right := by
  -- The pairing grows under a binding, so it is not fixed in the induction.
  induction c generalizing d env with
  | done t => cases d <;> simp [alpha, nameless, Tail.alpha_iff_nameless]
  | bind vars t rest ih =>
    cases d with
    | bind vars' t' rest' =>
      simp only [alpha, nameless, Bool.and_eq_true, beq_iff_eq, Tail.alpha_iff_nameless, bind.injEq,
        List.map_const', List.replicate_left_inj, and_assoc]
      refine and_congr_right fun hlen => and_congr_right fun _ => ?_
      rw [ih, Pairing.left_bind env hlen, Pairing.right_bind env hlen]
    | done _ | assert _ _ _ | branch _ _ _ | switch _ _ => simp [alpha, nameless]
  | assert a ctor rest ih =>
    cases d <;>
      simp [alpha, nameless, Ctor.same_iff_key, Atom.alpha_iff_nameless, ih, and_left_comm,
        and_assoc]
  | branch test yes no =>
    cases d <;> simp [alpha, nameless, Atom.alpha_iff_nameless, Call.alpha_iff_nameless, and_assoc]
  | switch a alts =>
    cases d <;> simp [alpha, nameless, Atom.alpha_iff_nameless, Alts.alpha_iff_nameless]

theorem Block.alphaEquiv_iff_nameless {b c : Block} :
    b.alphaEquiv c = true ↔ b.nameless = c.nameless := by
  simp only [alphaEquiv, nameless, Bool.and_eq_true, beq_iff_eq, Prod.mk.injEq]
  refine and_congr_right fun hlen => ?_
  simp [Code.alpha_iff_nameless, Pairing.left_bind [] hlen, Pairing.right_bind [] hlen]

theorem Closure.alphaEquiv_iff_nameless {k l : Closure} :
    k.alphaEquiv l = true ↔ k.nameless = l.nameless := by
  simp only [alphaEquiv, nameless, Bool.and_eq_true, beq_iff_eq, Prod.mk.injEq, and_assoc]
  refine and_congr_right fun hstored => and_congr_right fun hparams => ?_
  simp [Tail.alpha_iff_nameless, Pairing.left_bind _ hparams, Pairing.right_bind _ hparams,
    Pairing.left_bind _ hstored, Pairing.right_bind _ hstored]

theorem TopLevel.alphaEquiv_iff_nameless {t u : TopLevel} :
    t.alphaEquiv u = true ↔ t.nameless = u.nameless := by
  simp [alphaEquiv, nameless, Tail.alpha_iff_nameless]

/-- To be equivalent is an equivalence relation on definitions of each kind. -/
theorem alphaEquiv_equivalence :
    Equivalence (fun b c : Block => b.alphaEquiv c = true) ∧
      Equivalence (fun k l : Closure => k.alphaEquiv l = true) ∧
      Equivalence (fun t u : TopLevel => t.alphaEquiv u = true) := by
  simp only [Block.alphaEquiv_iff_nameless, Closure.alphaEquiv_iff_nameless,
    TopLevel.alphaEquiv_iff_nameless]
  exact ⟨eq_equivalence.comap Block.nameless, eq_equivalence.comap Closure.nameless,
    eq_equivalence.comap TopLevel.nameless⟩

-- The last of several parameters with one name is the one that is read.
example : Block.alphaEquiv ⟨[⟨1⟩, ⟨1⟩], .done (.ret [.temp ⟨1⟩]), {}, .source, [], none⟩
    ⟨[⟨2⟩, ⟨3⟩], .done (.ret [.temp ⟨3⟩]), {}, .source, [], none⟩ = true := by decide

end MonadicIR
