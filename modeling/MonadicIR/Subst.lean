import MonadicIR.Fault

namespace MonadicIR

/-- The newest pair comes first, and hides older ones for the same temporary. -/
structure Subst where
  pairs : List (Temp × Atom) := []
deriving DecidableEq, Repr

namespace Subst

def isEmpty (s : Subst) : Bool := s.pairs.isEmpty

def lookup (s : Subst) (t : Temp) : Option Atom := (s.pairs.find? fun p => p.1 == t).map (·.2)

/-- The wildcard is never mapped. -/
def extend (s : Subst) (t : Temp) (a : Atom) : Subst :=
  if t.isWildcard then s else ⟨(t, a) :: s.pairs⟩

/-- Maps temporaries one by one, as far as both lists go. -/
def extendAll (s : Subst) : List Temp → List Atom → Subst
  | t :: ts, a :: as => (s.extend t a).extendAll ts as
  | _, _ => s

def bind (s : Subst) (ts : List Temp) (as : List Atom) : Except Fault Subst :=
  if ts.length = as.length then .ok (s.extendAll ts as)
  else .error (.arityMismatch .substitution ts.length as.length)

/-- Maps each temporary of the first list to its partner in the second. -/
def rename (s : Subst) (ts us : List Temp) : Except Fault Subst :=
  s.bind ts (us.map Atom.temp)

/-- As `rename`, for lists that were made to match. -/
def renameAll (s : Subst) (ts us : List Temp) : Subst :=
  s.extendAll ts (us.map Atom.temp)

def remove (s : Subst) (ts : List Temp) : Subst :=
  ⟨s.pairs.filter fun p => !ts.contains p.1⟩

def apply (s : Subst) : Atom → Atom
  | .temp t => (s.lookup t).getD (.temp t)
  | a => a

def applyAll (s : Subst) (as : List Atom) : List Atom := as.map s.apply

/-- For a place that must hold a temporary. -/
def applyTemp (s : Subst) (t : Temp) : Temp :=
  match s.lookup t with
  | some (.temp u) => u
  | _ => t

end Subst

def Call.apply (s : Subst) (c : Call) : Call := ⟨c.target, s.applyAll c.args⟩

def Tail.apply (s : Subst) (t : Tail) : Tail := t.mapAtoms s.apply

end MonadicIR
