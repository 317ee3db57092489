import MonadicIR.Atom
import MonadicIR.Datatype

namespace MonadicIR

/-- A jump to a block, with an argument for each parameter. -/
structure Call where
  target : BlockId
  args : List Atom
deriving DecidableEq, Repr

def Call.text (c : Call) : String := s!"{c.target.text}[{atomsText c.args}]"

inductive Tail where
  | ret (args : List Atom)
  /-- Enter the closure `f`. -/
  | enter (f : Atom) (args : List Atom)
  | call (c : Call)
  | data (ctor : Ctor) (args : List Atom)
  | closure (k : ClosureId) (args : List Atom)
  /-- A field of a value that was built with `ctor`. -/
  | sel (ctor : Ctor) (field : Nat) (a : Atom)
  | prim (p : Prim) (args : List Atom)
deriving DecidableEq, Repr

namespace Tail

def purity : Tail → Purity
  | ret _ | data .. | closure .. | sel .. => .pure
  | enter .. | call _ => .impure
  | prim p _ => p.purity

def isPure (t : Tail) : Bool := t.purity.isPure

def isRepeatable (t : Tail) : Bool := t.purity.isRepeatable

def hasNoEffect (t : Tail) : Bool := t.purity.hasNoEffect

def blackholes : Tail → Bool
  | prim p _ => p.blackholes
  | _ => false

def isAllocator : Tail → Bool
  | data .. | closure .. => true
  | _ => false

def mapCall (f : Call → Call) : Tail → Tail
  | call c => call (f c)
  | t => t

def call? : Tail → Option Call
  | call c => some c
  | _ => none

/-- How many values the tail produces, where the tail alone shows it. -/
def outputs? : Tail → Option Nat
  | ret args => some args.length
  | data .. | closure .. | sel .. => some 1
  | prim p _ => if p.blackholes then none else some p.results
  | enter .. | call _ => none

def atoms : Tail → List Atom
  | ret args => args
  | call c => c.args
  | data _ args => args
  | closure _ args => args
  | prim _ args => args
  | enter f args => f :: args
  | sel _ _ a => [a]

def mapAtoms (g : Atom → Atom) : Tail → Tail
  | ret args => ret (args.map g)
  | call c => call ⟨c.target, c.args.map g⟩
  | data ctor args => data ctor (args.map g)
  | closure k args => closure k (args.map g)
  | prim p args => prim p (args.map g)
  | enter f args => enter (g f) (args.map g)
  | sel ctor field a => sel ctor field (g a)

def temps (t : Tail) : List Temp := t.atoms.filterMap Atom.temp?

def mentions (t : Tail) (x : Temp) : Bool := t.temps.contains x

/-- Equality, up to how constructors are described. -/
def same : Tail → Tail → Bool
  | ret xs, ret ys => xs == ys
  | enter f xs, enter g ys => f == g && xs == ys
  | call c, call d => c == d
  | data c xs, data d ys => c.same d && xs == ys
  | closure k xs, closure l ys => k == l && xs == ys
  | sel c n a, sel d m b => c.same d && n == m && a == b
  | prim p xs, prim q ys => p == q && xs == ys
  | _, _ => false

def text : Tail → String
  | ret [a] => "return " ++ a.text
  | ret args => s!"return [{atomsText args}]"
  | enter f args => s!"{f.text} @ [{atomsText args}]"
  | call c => c.text
  | data ctor args => s!"{ctor.name}({atomsText args})"
  | closure k args => k.text ++ "\x7b" ++ atomsText args ++ "\x7d"
  | sel ctor field a => s!"sel {ctor.name} {field} {a.text}"
  | prim p args => s!"{p.name}({atomsText args})"

end Tail

end MonadicIR
