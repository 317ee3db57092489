import MonadicIR.Tail

namespace MonadicIR

/-- Where two counts were found to differ. -/
inductive Site where
  | substitution
  | specialisation
  | transform
  | call (b : BlockId)
  | primitive (p : Prim)
  | entry (k : ClosureId)
  | closure (k : ClosureId)
  | data (ctor : String)
  | binding (tail : Tail) (defn : DefnId)
  | topLevel (t : TopId)
  | edge (b : BlockId)
deriving DecidableEq, Repr

def Site.text : Site → String
  | substitution => "substitution"
  | specialisation => "specialisation"
  | transform => "transform"
  | call b => "call to " ++ b.text
  | primitive p => "call to " ++ p.name
  | entry k => "entering " ++ k.text
  | closure k => "allocation of " ++ k.text
  | data ctor => "allocation of " ++ ctor
  | binding tail defn => s!"binding of {tail.text} in {defn.text}"
  | topLevel t => "top-level " ++ t.text
  | edge b => "edge to " ++ b.text

/-- The two statements that end a code sequence by branching. -/
inductive Branching where
  | conditional
  | case
deriving DecidableEq, Repr

def Branching.text : Branching → String
  | conditional => "conditional"
  | case => "case"

inductive Fault where
  | ctorOutOfRange (ctor : String) (tag family : Nat)
  | fieldOutOfRange (ctor : String) (field arity : Nat)
  | duplicateAlternative (ctor : String) (defn : DefnId)
  | uncovered (ctor : String) (defn : DefnId)
  | arityMismatch (site : Site) (expected found : Nat)
  | wildcardRead (defn : DefnId)
  | undefinedBlock (b : BlockId)
  | undefinedClosure (k : ClosureId)
  | undefinedTop (t : TopId) (index : Nat)
  | repeatedBinding (var : Temp) (defn : DefnId)
  | notStraightLine (by_ : Branching)
deriving DecidableEq, Repr

def Fault.message : Fault → String
  | ctorOutOfRange ctor tag family =>
    s!"constructor '{ctor}' has tag {tag}, but its type only has {family} constructors"
  | fieldOutOfRange ctor field arity =>
    s!"field {field} selected from constructor '{ctor}' of arity {arity}"
  | duplicateAlternative ctor defn =>
    s!"multiple alternatives for constructor '{ctor}' in {defn.text}"
  | uncovered ctor defn =>
    s!"case in {defn.text} is marked exhaustive, but constructor '{ctor}' is not covered"
  | arityMismatch site expected found =>
    s!"arity mismatch in {site.text}: expected {expected} values, found {found}"
  | wildcardRead defn => "wildcard variable read in " ++ defn.text
  | undefinedBlock b => b.text ++ " is not defined"
  | undefinedClosure k => k.text ++ " is not defined"
  | undefinedTop t index => s!"top-level component {index} of {t.text} does not exist"
  | repeatedBinding var defn => s!"variable {var.text} is bound more than once in {defn.text}"
  | notStraightLine b =>
    s!"cannot continue after a {b.text} in a straight-line code sequence"

inductive Complaint where
  | illegalRecursion (names : List String)
  | unknownEntrypoint (defn : DefnId)
  | noEntrypoints
deriving DecidableEq, Repr

def Complaint.message : Complaint → String
  | illegalRecursion names => "illegal recursive top-level binding for: " ++ commas names
  | unknownEntrypoint defn =>
    defn.text ++ " is declared as an entrypoint, but has no definition"
  | noEntrypoints => "the program has no entrypoints"

end MonadicIR
