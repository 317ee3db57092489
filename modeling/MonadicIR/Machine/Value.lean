import MonadicIR.Atom
import MonadicIR.Datatype

namespace MonadicIR

inductive Value where
  | word (w : Word)
  | flag (b : Bool)
  | data (ctor : Ctor) (fields : List Value)
  | closure (k : ClosureId) (stored : List Value)
  | external (name : String)
deriving Repr

/-- Closures are opaque, because it does not matter which definition one refers to. -/
inductive Observed where
  | word (w : Word)
  | flag (b : Bool)
  | data (ctor : String) (fields : List Observed)
  | closure
  | external (name : String)
deriving Repr

namespace Value

def scalar? : Value → Option Scalar
  | word w => some (.word w)
  | flag b => some (.flag b)
  | _ => none

def ofScalar : Scalar → Value
  | .word w => word w
  | .flag b => flag b

def kind : Value → String
  | word _ => "a word"
  | flag _ => "a flag"
  | data .. => "data"
  | closure .. => "a closure"
  | external _ => "an external symbol"

mutual

def observe : Value → Observed
  | word w => .word w
  | flag b => .flag b
  | data ctor fields => .data ctor.name (observeAll fields)
  | closure .. => .closure
  | external name => .external name

def observeAll : List Value → List Observed
  | [] => []
  | v :: vs => observe v :: observeAll vs

end

end Value

namespace Observed

mutual

def same : Observed → Observed → Bool
  | word v, word w => v == w
  | flag b, flag c => b == c
  | data c xs, data d ys => c == d && sameAll xs ys
  | closure, closure => true
  | external m, external n => m == n
  | _, _ => false

def sameAll : List Observed → List Observed → Bool
  | [], [] => true
  | x :: xs, y :: ys => same x y && sameAll xs ys
  | _, _ => false

end

mutual

theorem eq_of_same : ∀ x y : Observed, same x y = true → x = y
  | word _, word _, h => by simp_all [same]
  | flag _, flag _, h => by simp_all [same]
  | data c xs, data d ys, h => by
    simp only [same, Bool.and_eq_true, beq_iff_eq] at h
    rw [h.1, eq_of_sameAll xs ys h.2]
  | closure, closure, _ => rfl
  | external _, external _, h => by simp_all [same]

theorem eq_of_sameAll : ∀ xs ys : List Observed, sameAll xs ys = true → xs = ys
  | [], [], _ => rfl
  | x :: xs, y :: ys, h => by
    simp only [sameAll, Bool.and_eq_true] at h
    rw [eq_of_same x y h.1, eq_of_sameAll xs ys h.2]

end

mutual

theorem same_self : ∀ x : Observed, same x x = true
  | word _ => by simp [same]
  | flag _ => by simp [same]
  | data _ xs => by simp [same, sameAll_self xs]
  | closure => rfl
  | external _ => by simp [same]

theorem sameAll_self : ∀ xs : List Observed, sameAll xs xs = true
  | [] => rfl
  | x :: xs => by simp [sameAll, same_self x, sameAll_self xs]

end

instance : DecidableEq Observed := fun x y =>
  if h : same x y = true then isTrue (eq_of_same x y h)
  else isFalse fun e => h (e ▸ same_self x)

mutual

def text : Observed → String
  | word w => wordText w
  | flag b => flagText b
  | data ctor [] => ctor
  | data ctor (x :: xs) => ctor ++ "(" ++ listText (x :: xs) ++ ")"
  | closure => "<closure>"
  | external name => "@" ++ name

def listText : List Observed → String
  | [] => ""
  | [x] => text x
  | x :: y :: xs => text x ++ ", " ++ listText (y :: xs)

end

end Observed

inductive Termination where
  | returned (values : List Observed)
  | halted
  /-- Ran into an endless loop, or out of steps. -/
  | diverged
deriving DecidableEq, Repr

def Termination.text : Termination → String
  | returned values => s!"returned [{Observed.listText values}]"
  | halted => "halted"
  | diverged => "diverged"

/-- All that can be observed of a run. -/
structure Outcome where
  output : List Observed
  termination : Termination
deriving DecidableEq, Repr

end MonadicIR
