namespace MonadicIR

/-- Types are carried along for the front end; nothing here infers them. -/
inductive Ty where
  | var (n : Nat)
  | con (name : String) (args : List Ty)
deriving Repr

namespace Ty

abbrev Assignment := List (Nat × Ty)

/-- The last pair for a variable is the one that counts. -/
def Assignment.lookup (s : Assignment) (v : Nat) : Option Ty :=
  (s.reverse.find? fun p => p.1 == v).map (·.2)

mutual

def apply (s : Assignment) : Ty → Ty
  | var v => (s.lookup v).getD (var v)
  | con name args => con name (applyAll s args)

def applyAll (s : Assignment) : List Ty → List Ty
  | [] => []
  | t :: ts => apply s t :: applyAll s ts

end

mutual

def monomorphic : Ty → Bool
  | var _ => false
  | con _ args => allMonomorphic args

def allMonomorphic : List Ty → Bool
  | [] => true
  | t :: ts => monomorphic t && allMonomorphic ts

end

mutual

def text : Ty → String
  | var v => s!"a{v}"
  | con name [] => name
  | con name (t :: ts) => "(" ++ name ++ argsText (t :: ts) ++ ")"

def argsText : List Ty → String
  | [] => ""
  | t :: ts => " " ++ text t ++ argsText ts

end

mutual

def same : Ty → Ty → Bool
  | var v, var w => v == w
  | con a xs, con b ys => a == b && sameAll xs ys
  | _, _ => false

def sameAll : List Ty → List Ty → Bool
  | [], [] => true
  | x :: xs, y :: ys => same x y && sameAll xs ys
  | _, _ => false

end

mutual

theorem same_iff : ∀ a b : Ty, same a b = true ↔ a = b
  | var v, var w => by simp [same]
  | con a xs, con b ys => by simp [same, sameAll_iff xs ys]
  | var _, con _ _ => by simp [same]
  | con _ _, var _ => by simp [same]

theorem sameAll_iff : ∀ xs ys : List Ty, sameAll xs ys = true ↔ xs = ys
  | [], [] => by simp [sameAll]
  | x :: xs, y :: ys => by simp [sameAll, same_iff x y, sameAll_iff xs ys]
  | [], _ :: _ => by simp [sameAll]
  | _ :: _, [] => by simp [sameAll]

end

instance : DecidableEq Ty := fun a b => decidable_of_iff _ (same_iff a b)

end Ty

structure Temp where
  index : Nat
deriving DecidableEq, Repr

namespace Temp

def wildcard : Temp := ⟨0⟩

def isWildcard (t : Temp) : Bool := t.index == 0

def text (t : Temp) : String :=
  if t.isWildcard then "_" else s!"t{t.index}"

end Temp

/-- The text of a list: its items separated by commas. -/
def commas (items : List String) : String := ", ".intercalate items

def tempsText (ts : List Temp) : String := commas (ts.map Temp.text)

/-- The types of all temporaries allocated so far, the wildcard's slot first. -/
structure Temps where
  types : Array (Option Ty) := #[none]
deriving DecidableEq, Repr

namespace Temps

def size (m : Temps) : Nat := m.types.size

def freshTyped (m : Temps) (ty : Option Ty) : Temp × Temps :=
  (⟨m.types.size⟩, ⟨m.types.push ty⟩)

def fresh (m : Temps) : Temp × Temps := m.freshTyped none

def freshN (m : Temps) : Nat → List Temp × Temps
  | 0 => ([], m)
  | n + 1 =>
    let (t, m) := m.fresh
    let (ts, m) := m.freshN n
    (t :: ts, m)

def ty (m : Temps) (t : Temp) : Option Ty := (m.types[t.index]?).join

/-- A new temporary of the type of `t`; the wildcard stands for itself. -/
def freshLike (m : Temps) (t : Temp) : Temp × Temps :=
  if t.isWildcard then (t, m) else m.freshTyped (m.ty t)

def freshLikeAll (m : Temps) : List Temp → List Temp × Temps
  | [] => ([], m)
  | t :: ts =>
    let (u, m) := m.freshLike t
    let (us, m) := m.freshLikeAll ts
    (u :: us, m)

/-- The wildcard has no type, and a temporary that was never allocated gets none. -/
def setTy (m : Temps) (t : Temp) (ty : Ty) : Temps :=
  if t.isWildcard then m else ⟨m.types.setIfInBounds t.index (some ty)⟩

end Temps

end MonadicIR
