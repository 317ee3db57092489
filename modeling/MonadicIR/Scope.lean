import MonadicIR.Program

namespace MonadicIR

def tempsOf (as : List Atom) : List Temp := as.filterMap Atom.temp?

namespace Code

/-- The reads of variables that are not bound where they are read, in order. -/
def openReads : Code → List Temp → List Temp
  | bind vars tail rest, bound =>
    tail.temps.filter (!bound.contains ·) ++ rest.openReads (bound ++ vars)
  | assert a _ rest, bound =>
    a.temp?.toList.filter (!bound.contains ·) ++ rest.openReads bound
  | done t, bound => t.temps.filter (!bound.contains ·)
  | branch test yes no, bound =>
    (tempsOf (branch test yes no).atoms).filter (!bound.contains ·)
  | switch a alts, bound => (tempsOf (switch a alts).atoms).filter (!bound.contains ·)

/-- The variables that are read but not bound, in order of first use. -/
def freeTemps (code : Code) : List Temp := distinct (code.openReads [])

end Code

namespace Program

/-- The parameters and stored fields that the body reads. -/
def liveArgs (p : Program) : DefnId → Except Fault (List Temp)
  | .block b => (p.block b).map fun block => block.params.filter block.code.freeTemps.contains
  | .closure k =>
    (p.closure k).map fun closure =>
      (closure.stored ++ closure.params).filter closure.tail.temps.contains
  | .top _ => .ok []

end Program

namespace Edit

/-- Makes parameters of the free variables of a block, and gives those that were added. -/
def addArgs (b : BlockId) : Edit (List Temp) := do
  let block ← read (·.block b)
  let added := block.code.freeTemps.filter (!block.params.contains ·)
  modify fun p => p.setBlock b { block with params := block.params ++ added }
  return added

end Edit

end MonadicIR
