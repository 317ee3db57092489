namespace MonadicIR

abbrev Word := Int64

/-- Each level keeps the guarantees that are weaker than its own. -/
inductive Purity where
  | pure
  /-- Reads what an effect may change. -/
  | observer
  /-- No visible effect, but two uses may differ. -/
  | volatile
  | impure
  | doesntReturn
deriving DecidableEq, Repr

namespace Purity

def rank : Purity → Nat
  | pure => 0
  | observer => 1
  | volatile => 2
  | impure => 3
  | doesntReturn => 4

def isPure (p : Purity) : Bool := p == pure

/-- Can an earlier result be used again? -/
def isRepeatable (p : Purity) : Bool := p.rank ≤ observer.rank

def hasNoEffect (p : Purity) : Bool := p.rank ≤ volatile.rank

end Purity

inductive Scalar where
  | word (w : Word)
  | flag (b : Bool)
deriving DecidableEq, Repr

inductive Prim where
  | add | sub | mul | neg
  | and | or | xor | not | shl | lshr
  | eq | neq | lt | lte | gt | gte
  | bnot | band | bor
  | flagToWord
  | load | store
  | ticks
  | print
  | halt
  | loop
deriving DecidableEq, Repr

def flagText (b : Bool) : String := if b then "true" else "false"

def wordText (w : Word) : String := toString w.toInt

namespace Scalar

def text : Scalar → String
  | word w => wordText w
  | flag b => flagText b

end Scalar

namespace Prim

def all : List Prim :=
  [add, sub, mul, neg, and, or, xor, not, shl, lshr, eq, neq, lt, lte, gt, gte, bnot, band, bor,
    flagToWord, load, store, ticks, print, halt, loop]

def number (p : Prim) : Nat := all.idxOf p

def name : Prim → String
  | add => "add"
  | sub => "sub"
  | mul => "mul"
  | neg => "neg"
  | and => "and"
  | or => "or"
  | xor => "xor"
  | not => "not"
  | shl => "shl"
  | lshr => "lshr"
  | eq => "eq"
  | neq => "neq"
  | lt => "lt"
  | lte => "lte"
  | gt => "gt"
  | gte => "gte"
  | bnot => "bnot"
  | band => "band"
  | bor => "bor"
  | flagToWord => "flagToWord"
  | load => "load"
  | store => "store"
  | ticks => "ticks"
  | print => "print"
  | halt => "halt"
  | loop => "loop"

def ofName? (s : String) : Option Prim := all.find? fun p => p.name == s

def purity : Prim → Purity
  | load => .observer
  | ticks => .volatile
  | store | print => .impure
  | halt | loop => .doesntReturn
  | _ => .pure

def arity : Prim → Nat
  | ticks | halt | loop => 0
  | neg | not | bnot | flagToWord | load | print => 1
  | _ => 2

def results : Prim → Nat
  | store | print | halt | loop => 0
  | _ => 1

/-- A call of such a primitive never completes. -/
def blackholes : Prim → Bool
  | halt | loop => true
  | _ => false

/-- The comparison that holds exactly when this one does not. -/
def dual? : Prim → Option Prim
  | eq => some neq
  | neq => some eq
  | lt => some gte
  | gte => some lt
  | lte => some gt
  | gt => some lte
  | _ => none

def isCommutative : Prim → Bool
  | add | mul | and | or | xor | eq | neq | band | bor => true
  | _ => false

/-- Shifts take the low six bits of their amount. -/
def shiftAmount (y : Word) : Word := y &&& 63

/-- The result of a pure primitive on arguments of the right shape. -/
def compute? : Prim → List Scalar → Option Scalar
  | add, [.word x, .word y] => some (.word (x + y))
  | sub, [.word x, .word y] => some (.word (x - y))
  | mul, [.word x, .word y] => some (.word (x * y))
  | neg, [.word x] => some (.word (-x))
  | and, [.word x, .word y] => some (.word (x &&& y))
  | or, [.word x, .word y] => some (.word (x ||| y))
  | xor, [.word x, .word y] => some (.word (x ^^^ y))
  | not, [.word x] => some (.word (~~~x))
  | shl, [.word x, .word y] => some (.word (x <<< shiftAmount y))
  | lshr, [.word x, .word y] => some (.word (x.toUInt64 >>> (shiftAmount y).toUInt64).toInt64)
  | eq, [.word x, .word y] => some (.flag (x == y))
  | neq, [.word x, .word y] => some (.flag (x != y))
  | lt, [.word x, .word y] => some (.flag (x < y))
  | lte, [.word x, .word y] => some (.flag (x ≤ y))
  | gt, [.word x, .word y] => some (.flag (y < x))
  | gte, [.word x, .word y] => some (.flag (y ≤ x))
  | bnot, [.flag x] => some (.flag !x)
  | band, [.flag x, .flag y] => some (.flag (x && y))
  | bor, [.flag x, .flag y] => some (.flag (x || y))
  | flagToWord, [.flag x] => some (.word (if x then 1 else 0))
  | _, _ => none

end Prim

end MonadicIR
