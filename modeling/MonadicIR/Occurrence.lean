import MonadicIR.Program

namespace MonadicIR

/-- A definition that is referred to, and whether this is a call that waits. -/
abbrev Reference := DefnId × Bool

namespace Atom

def reference? (a : Atom) : Option Reference := a.top?.map fun r => (.top r.top, false)

end Atom

namespace Tail

def references (waits : Bool) (t : Tail) : List Reference :=
  let heads : List Reference :=
    match t with
    | call c => [(.block c.target, waits)]
    | closure k _ => [(.closure k, false)]
    | _ => []
  heads ++ t.atoms.filterMap Atom.reference?

end Tail

namespace Code

def references : Code → List Reference
  | done t => t.references false
  | bind _ tail rest => tail.references true ++ rest.references
  | assert a _ rest => a.reference?.toList ++ rest.references
  | branch test yes no =>
    (branch test yes no).atoms.filterMap Atom.reference? ++
      [(.block yes.target, false), (.block no.target, false)]
  | switch a alts =>
    (switch a alts).atoms.filterMap Atom.reference? ++
      alts.calls.map fun c => (.block c.target, false)

end Code

namespace Program

def references (p : Program) : DefnId → Except Fault (List Reference)
  | .block b => (p.block b).map fun block => block.code.references
  | .closure k => (p.closure k).map fun closure => closure.tail.references false
  | .top t => (p.top t).map fun top => top.tail.references true

def allReferences (p : Program) : List DefnId → Except Fault (List Reference)
  | [] => .ok []
  | d :: ds => do
    let own ← p.references d
    return own ++ (← p.allReferences ds)

/-- The notes before counting: each listing as an entrypoint counts for one reference. -/
def resetCounts (p : Program) : Program :=
  p.mapNotes fun d notes =>
    { notes with
      occurs := p.entrypoints.count d
      calls := 0
      entrypoint := p.entrypoints.contains d }

end Program

namespace Edit

def countReferences : List Reference → Edit Unit
  | [] => return ()
  | (d, waits) :: rs => do
    modifyNotes d fun notes =>
      { notes with
        occurs := notes.occurs + 1
        calls := if waits then notes.calls + 1 else notes.calls }
    countReferences rs

/-- Counts the references in the retained definitions. -/
def countOccurrences : Edit Unit := do
  modify Program.resetCounts
  countReferences (← read fun p => p.allReferences p.defns)

end Edit

end MonadicIR
