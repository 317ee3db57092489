import MonadicIR.Defn

namespace MonadicIR

/-- A strongly connected component of the references between definitions. -/
structure Component where
  members : List DefnId
  recursive : Bool
  /-- The numbers of the other components that a member refers to. -/
  uses : List Nat
deriving DecidableEq, Repr

structure Program where
  temps : Temps := {}
  datatypes : Array DataType := #[]
  blocks : Array Block := #[]
  closures : Array Closure := #[]
  tops : Array TopLevel := #[]
  entrypoints : List DefnId := []
  /-- Callees come first. Empty until the components have been computed. -/
  components : Array Component := #[]
deriving DecidableEq, Repr

/-- A change of a program. What was done before a fault stays done. -/
abbrev Edit := EStateM Fault Program

/-- The items without repetitions, in order of first appearance. -/
def distinct {α : Type} [DecidableEq α] (items : List α) : List α :=
  items.foldl (fun seen a => if seen.contains a then seen else seen ++ [a]) []

namespace DefnId

/-- The fault of a reference to a definition that is not there. -/
def missing : DefnId → Fault
  | block b => .undefinedBlock b
  | closure k => .undefinedClosure k
  | top t => .undefinedTop t 0

end DefnId

namespace Tail

/-- The definitions that the tail refers to. -/
def refs (t : Tail) : List DefnId :=
  let heads : List DefnId :=
    match t with
    | call c => [.block c.target]
    | closure k _ => [.closure k]
    | _ => []
  heads ++ t.atoms.filterMap fun a => a.top?.map fun r => .top r.top

end Tail

namespace Code

def refs (code : Code) : List DefnId :=
  code.tails.flatMap Tail.refs ++ code.calls.map (fun c => .block c.target) ++
    code.atoms.filterMap fun a => a.top?.map fun r => .top r.top

end Code

namespace Program

def block (p : Program) (b : BlockId) : Except Fault Block :=
  match p.blocks[b.index]? with
  | some block => .ok block
  | none => .error (.undefinedBlock b)

def closure (p : Program) (k : ClosureId) : Except Fault Closure :=
  match p.closures[k.index]? with
  | some closure => .ok closure
  | none => .error (.undefinedClosure k)

def top (p : Program) (t : TopId) : Except Fault TopLevel :=
  match p.tops[t.index]? with
  | some top => .ok top
  | none => .error (.undefinedTop t 0)

def notes (p : Program) : DefnId → Except Fault Notes
  | .block b => (p.block b).map Block.notes
  | .closure k => (p.closure k).map Closure.notes
  | .top t => (p.top t).map TopLevel.notes

/-- Is there a definition of this name? -/
def defines (p : Program) : DefnId → Bool
  | .block b => b.index < p.blocks.size
  | .closure k => k.index < p.closures.size
  | .top t => t.index < p.tops.size

def blockIds (p : Program) : List BlockId := (List.range p.blocks.size).map BlockId.mk

def closureIds (p : Program) : List ClosureId := (List.range p.closures.size).map ClosureId.mk

def topIds (p : Program) : List TopId := (List.range p.tops.size).map TopId.mk

def allDefns (p : Program) : List DefnId :=
  p.blockIds.map .block ++ p.closureIds.map .closure ++ p.topIds.map .top

/-- The definitions that are still part of the program. -/
def defns (p : Program) : List DefnId :=
  if p.components.isEmpty then p.allDefns else p.components.toList.flatMap Component.members

def isEntrypoint (p : Program) (d : DefnId) : Bool := p.entrypoints.contains d

/-- Is `b` in no component, or in another one than `d`? -/
def inOtherComponent (p : Program) (b : BlockId) (d : DefnId) : Except Fault Bool := do
  let theirs := (← p.block b).notes.component
  let ours := (← p.notes d).component
  return theirs.isNone || theirs != ours

def isRecursive (p : Program) (d : DefnId) : Except Fault Bool :=
  (p.notes d).map fun notes =>
    match notes.component with
    | some i => (p.components[i]?).any Component.recursive
    | none => false

/-- The definitions that `d` refers to, in order of appearance. -/
def callees (p : Program) : DefnId → Except Fault (List DefnId)
  | .block b => (p.block b).map fun block => distinct block.code.refs
  | .closure k => (p.closure k).map fun closure => distinct closure.tail.refs
  | .top t => (p.top t).map fun top => distinct top.tail.refs

/-- The allocation behind a top-level value, where that is all its definition does. -/
def topAllocator? (p : Program) (r : TopRef) : Option Tail :=
  match p.tops[r.top.index]? with
  | some top =>
    if top.lhs.length == 1 && r.index == 0 && top.tail.isAllocator then some top.tail else none
  | none => none

/-- All constructors of the type that `ctor` belongs to. -/
def siblings (p : Program) (ctor : Ctor) : Except Fault (List Ctor) :=
  if ctor.inRange then
    match p.datatypes[ctor.ty]? with
    | some dt =>
      if dt.ctors.length == ctor.family then .ok dt.ctors
      else .error (.ctorOutOfRange ctor.name ctor.tag 0)
    | none => .error (.ctorOutOfRange ctor.name ctor.tag 0)
  else .error (.ctorOutOfRange ctor.name ctor.tag ctor.family)

/-- The number of statements of the retained blocks, with one for any other definition. -/
def size (p : Program) : Nat :=
  (p.defns.map fun
    | .block b => (p.blocks[b.index]?).elim 0 fun block => block.code.size
    | _ => 1).foldr (· + ·) 0

def defnText (p : Program) : DefnId → String
  | .block b =>
    match p.blocks[b.index]? with
    | some block => s!"{b.text}[{tempsText block.params}] =\n{block.code.indented 4}"
    | none => b.text ++ " = ?"
  | .closure k =>
    match p.closures[k.index]? with
    | some c =>
      k.text ++ "\x7b" ++ tempsText c.stored ++ "\x7d" ++
        s!" [{tempsText c.params}] = {c.tail.text}"
    | none => k.text ++ " = ?"
  | .top t =>
    match p.tops[t.index]? with
    | some top => s!"{t.text} ({commas top.names}) <- {top.tail.text}"
    | none => t.text ++ " = ?"

/-- The retained definitions in order, an empty line between them, and then the entrypoints. -/
def text (p : Program) : String :=
  let defns := (DefnId.sort p.defns).map fun d => p.defnText d ++ "\n"
  let exports :=
    if p.entrypoints.isEmpty then ""
    else s!"\nexport {commas (p.entrypoints.map DefnId.text)}\n"
  "\n".intercalate defns ++ exports

def addBlock (p : Program) (block : Block) : BlockId × Program :=
  (⟨p.blocks.size⟩, { p with blocks := p.blocks.push block })

def addClosure (p : Program) (closure : Closure) : ClosureId × Program :=
  (⟨p.closures.size⟩, { p with closures := p.closures.push closure })

def addTop (p : Program) (top : TopLevel) : TopId × Program :=
  (⟨p.tops.size⟩, { p with tops := p.tops.push top })

def setBlock (p : Program) (b : BlockId) (block : Block) : Program :=
  { p with blocks := p.blocks.setIfInBounds b.index block }

def setClosure (p : Program) (k : ClosureId) (closure : Closure) : Program :=
  { p with closures := p.closures.setIfInBounds k.index closure }

def setTop (p : Program) (t : TopId) (top : TopLevel) : Program :=
  { p with tops := p.tops.setIfInBounds t.index top }

/-- A definition that is not there has no notes to change. -/
def modifyNotes (p : Program) (d : DefnId) (f : Notes → Notes) : Program :=
  match d with
  | .block b =>
    { p with blocks := p.blocks.modify b.index fun x => { x with notes := f x.notes } }
  | .closure k =>
    { p with closures := p.closures.modify k.index fun x => { x with notes := f x.notes } }
  | .top t => { p with tops := p.tops.modify t.index fun x => { x with notes := f x.notes } }

/-- Changes the notes of every definition. -/
def mapNotes (p : Program) (f : DefnId → Notes → Notes) : Program :=
  { p with
    blocks := p.blocks.mapIdx fun i x => { x with notes := f (.block ⟨i⟩) x.notes }
    closures := p.closures.mapIdx fun i x => { x with notes := f (.closure ⟨i⟩) x.notes }
    tops := p.tops.mapIdx fun i x => { x with notes := f (.top ⟨i⟩) x.notes } }

/-- Declares a data type and gives its constructors. -/
def declare (p : Program) (name : String) (ctors : List (String × Nat)) : List Ctor × Program :=
  let dt := DataType.declare p.datatypes.size name ctors
  (dt.ctors, { p with datatypes := p.datatypes.push dt })

/-- A definition is listed once. -/
def addEntrypoint (p : Program) (d : DefnId) : Program :=
  if p.isEntrypoint d then p else { p with entrypoints := p.entrypoints ++ [d] }

end Program

namespace Edit

/-- Looks at the program, which may show a fault. -/
def read {α : Type} (f : Program → Except Fault α) : Edit α := fun p =>
  match f p with
  | .ok a => .ok a p
  | .error e => .error e p

/-- Changes the program and gives a result. -/
def update {α : Type} (f : Program → α × Program) : Edit α := fun p =>
  let (a, p) := f p
  .ok a p

def fresh : Edit Temp := update fun p =>
  let (t, m) := p.temps.fresh
  (t, { p with temps := m })

def freshN (n : Nat) : Edit (List Temp) := update fun p =>
  let (ts, m) := p.temps.freshN n
  (ts, { p with temps := m })

def freshTyped (ty : Option Ty) : Edit Temp := update fun p =>
  let (t, m) := p.temps.freshTyped ty
  (t, { p with temps := m })

def freshLike (t : Temp) : Edit Temp := update fun p =>
  let (u, m) := p.temps.freshLike t
  (u, { p with temps := m })

def freshLikeAll (ts : List Temp) : Edit (List Temp) := update fun p =>
  let (us, m) := p.temps.freshLikeAll ts
  (us, { p with temps := m })

/-- A copy of code with fresh bound variables, and the substitution with their renaming. -/
def copyFresh (code : Code) (s : Subst) : Edit (Code × Subst) := update fun p =>
  let (copy, m, s) := code.copyFresh p.temps s
  ((copy, s), { p with temps := m })

def addBlock (block : Block) : Edit BlockId := update fun p => p.addBlock block

def addClosure (closure : Closure) : Edit ClosureId := update fun p => p.addClosure closure

def addTop (top : TopLevel) : Edit TopId := update fun p => p.addTop top

def modifyBlock (b : BlockId) (f : Block → Block) : Edit Unit := do
  let block ← read (·.block b)
  modify fun p => p.setBlock b (f block)

def modifyClosure (k : ClosureId) (f : Closure → Closure) : Edit Unit := do
  let closure ← read (·.closure k)
  modify fun p => p.setClosure k (f closure)

def modifyTop (t : TopId) (f : TopLevel → TopLevel) : Edit Unit := do
  let top ← read (·.top t)
  modify fun p => p.setTop t (f top)

def modifyNotes (d : DefnId) (f : Notes → Notes) : Edit Unit := do
  let _ ← read (·.notes d)
  modify fun p => p.modifyNotes d f

/-- Gives a block that was declared its parameters and body. -/
def defineBlock (b : BlockId) (params : List Temp) (code : Code) : Edit Unit :=
  modifyBlock b fun block => { block with params, code }

def defineClosure (k : ClosureId) (stored params : List Temp) (tail : Tail) : Edit Unit :=
  modifyClosure k fun closure => { closure with stored, params, tail }

end Edit

end MonadicIR
