import MonadicIR.Temp
import MonadicIR.Prim

namespace MonadicIR

structure BlockId where
  index : Nat
deriving DecidableEq, Repr

structure ClosureId where
  index : Nat
deriving DecidableEq, Repr

structure TopId where
  index : Nat
deriving DecidableEq, Repr

def BlockId.text (b : BlockId) : String := s!"b{b.index}"

def ClosureId.text (k : ClosureId) : String := s!"k{k.index}"

def TopId.text (t : TopId) : String := s!"top{t.index}"

inductive DefnId where
  | block (b : BlockId)
  | closure (k : ClosureId)
  | top (t : TopId)
deriving DecidableEq, Repr

namespace DefnId

def text : DefnId → String
  | block b => b.text
  | closure k => k.text
  | top t => t.text

/-- Blocks come before closures, closures before top-levels, and each kind goes by number. -/
def le : DefnId → DefnId → Bool
  | block a, block b => a.index ≤ b.index
  | block _, _ => true
  | closure _, block _ => false
  | closure a, closure b => a.index ≤ b.index
  | closure _, top _ => true
  | top a, top b => a.index ≤ b.index
  | top _, _ => false

def sort (ds : List DefnId) : List DefnId := ds.mergeSort le

end DefnId

/-- One of the values that a top-level definition computes. -/
structure TopRef where
  top : TopId
  index : Nat
deriving DecidableEq, Repr

inductive Atom where
  | temp (t : Temp)
  | word (w : Word)
  | flag (b : Bool)
  | top (r : TopRef)
  /-- A symbol that is defined outside of the program. -/
  | external (name : String)
deriving DecidableEq, Repr

namespace Atom

def temp? : Atom → Option Temp
  | temp t => some t
  | _ => none

def word? : Atom → Option Word
  | word w => some w
  | _ => none

def flag? : Atom → Option Bool
  | flag b => some b
  | _ => none

def scalar? : Atom → Option Scalar
  | word w => some (.word w)
  | flag b => some (.flag b)
  | _ => none

def ofScalar : Scalar → Atom
  | .word w => word w
  | .flag b => flag b

def top? : Atom → Option TopRef
  | top r => some r
  | _ => none

def isConstant : Atom → Bool
  | word _ | flag _ => true
  | _ => false

def text : Atom → String
  | temp t => t.text
  | word w => wordText w
  | flag b => flagText b
  | top r => s!"{r.top.text}.{r.index}"
  | external name => "@" ++ name

end Atom

def atomsText (as : List Atom) : String := commas (as.map Atom.text)

end MonadicIR
