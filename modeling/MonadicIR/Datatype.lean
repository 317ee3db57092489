namespace MonadicIR

structure Ctor where
  /-- The number of the data type. -/
  ty : Nat
  tag : Nat
  arity : Nat
  /-- How many constructors the type has. -/
  family : Nat
  name : String
deriving DecidableEq, Repr

namespace Ctor

/-- A constructor is identified by its type and its place there. -/
def same (c d : Ctor) : Bool := c.ty == d.ty && c.tag == d.tag

def isNullary (c : Ctor) : Bool := c.arity == 0

def inRange (c : Ctor) : Bool := c.tag < c.family

theorem same_iff {c d : Ctor} : c.same d = true ↔ c.ty = d.ty ∧ c.tag = d.tag := by
  simp [same]

@[simp] theorem same_refl (c : Ctor) : c.same c = true := by simp [same]

theorem same_comm (c d : Ctor) : c.same d = d.same c := by
  simp only [same, Bool.beq_comm]

theorem same_trans {c d e : Ctor} (h : c.same d = true) (h' : d.same e = true) :
    c.same e = true := by
  rw [same_iff] at *
  exact ⟨h.1.trans h'.1, h.2.trans h'.2⟩

end Ctor

structure DataType where
  name : String
  ctors : List Ctor
deriving DecidableEq, Repr

namespace DataType

/-- The type numbered `ty`, with constructors of the given names and arities. -/
def declare (ty : Nat) (name : String) (ctors : List (String × Nat)) : DataType :=
  ⟨name, ctors.mapIdx fun tag (c, arity) => ⟨ty, tag, arity, ctors.length, c⟩⟩

end DataType

end MonadicIR
