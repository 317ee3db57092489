import MonadicIR.Program

namespace MonadicIR

inductive Fact where
  /-- The variable holds the result of this tail. -/
  | tail (t : Tail)
  /-- The variable holds a value that was built with this constructor. -/
  | ctor (c : Ctor)
deriving DecidableEq, Repr

namespace Fact

def ctor? : Fact → Option Ctor
  | tail (.data c _) => some c
  | ctor c => some c
  | tail _ => none

def tail? : Fact → Option Tail
  | tail t => some t
  | ctor _ => none

end Fact

/-- The facts, the newest first. -/
structure Facts where
  items : List (Temp × Fact) := []
deriving DecidableEq, Repr

namespace Facts

def size (fs : Facts) : Nat := fs.items.length

def isEmpty (fs : Facts) : Bool := fs.items.isEmpty

def lookup (fs : Facts) (t : Temp) : Option Fact := (fs.items.find? fun i => i.1 == t).map (·.2)

def lookupTail (fs : Facts) (t : Temp) : Option Tail := (fs.lookup t).bind Fact.tail?

/-- A variable that already holds the result of `t`. -/
def find (fs : Facts) (t : Tail) : Option Temp :=
  (fs.items.find? fun i => i.2.tail?.any (·.same t)).map (·.1)

/-- Forgets all about `vars`, with the tails that mention them. -/
def kill (fs : Facts) (vars : List Temp) : Facts :=
  ⟨fs.items.filter fun i =>
    !vars.contains i.1 && !i.2.tail?.any fun t => vars.any t.mentions⟩

/-- Forgets what an effect may change. -/
def killNonPure (fs : Facts) : Facts :=
  ⟨fs.items.filter fun i => i.2.tail?.all Tail.isPure⟩

/-- Nothing is known of the wildcard. -/
def learn (fs : Facts) (t : Temp) (fact : Fact) : Facts :=
  if t.isWildcard then fs else ⟨(t, fact) :: fs.items⟩

def add (fs : Facts) (t : Temp) (tail : Tail) : Facts := fs.learn t (.tail tail)

def addCtor (fs : Facts) (t : Temp) (c : Ctor) : Facts := fs.learn t (.ctor c)

/-- What is known of an atom: a fact about a variable, or the allocation of a top-level. -/
def about (fs : Facts) (p : Program) : Atom → Option Fact
  | .temp t => fs.lookup t
  | .top r => (p.topAllocator? r).map .tail
  | _ => none

def ctorOf (fs : Facts) (p : Program) (a : Atom) : Option Ctor := (fs.about p a).bind Fact.ctor?

def tailOf (fs : Facts) (p : Program) (a : Atom) : Option Tail := (fs.about p a).bind Fact.tail?

end Facts

end MonadicIR
