import MonadicIR.Program

namespace MonadicIR

namespace Program

def callNeverReturns (p : Program) (c : Call) : Except Fault Bool :=
  (p.block c.target).map fun block => block.notes.neverReturns

/-- Given what is noted so far, does the tail certainly not return? -/
def tailNeverReturns (p : Program) : Tail → Except Fault Bool
  | .call c => p.callNeverReturns c
  | .prim q _ => .ok (q.purity == .doesntReturn)
  | _ => .ok false

/-- All calls are looked up, whatever the first ones show. -/
def callsNeverReturn (p : Program) : List Call → Except Fault Bool
  | [] => .ok true
  | c :: cs => do
    let first ← p.callNeverReturns c
    let others ← p.callsNeverReturn cs
    return first && others

def codeNeverReturns (p : Program) : Code → Except Fault Bool
  | .done t => p.tailNeverReturns t
  | .bind _ tail rest => do
    if ← p.tailNeverReturns tail then return true else p.codeNeverReturns rest
  | .assert _ _ rest => p.codeNeverReturns rest
  | .branch _ yes no => do
    if ← p.callNeverReturns yes then p.callNeverReturns no else return false
  | .switch _ alts => p.callsNeverReturn alts.calls

def defnNeverReturns (p : Program) : DefnId → Except Fault Bool
  | .block b => do p.codeNeverReturns (← p.block b).code
  | .closure k => do p.tailNeverReturns (← p.closure k).tail
  | .top t => do p.tailNeverReturns (← p.top t).tail

end Program

namespace Edit

def noteNeverReturns (b : Bool) (d : DefnId) : Edit Unit :=
  modifyNotes d fun notes => { notes with neverReturns := b }

def supposeAll : List DefnId → Edit Unit
  | [] => return ()
  | d :: ds => do
    noteNeverReturns true d
    supposeAll ds

/-- Withdraws the supposition where it does not hold. Was there such a place? -/
def withdraw : List DefnId → Edit Bool
  | [] => return false
  | d :: ds => do
    let supposed := (← read (·.notes d)).neverReturns
    let refuted ← if supposed then do
        let holds ← read (·.defnNeverReturns d)
        pure !holds
      else pure false
    if refuted then noteNeverReturns false d
    let others ← withdraw ds
    return refuted || others

/-- Each round but the last withdraws something, so there are not more rounds than members and one. -/
def settle (members : List DefnId) : Nat → Edit Unit
  | 0 => return ()
  | fuel + 1 => do
    if ← withdraw members then settle members fuel

def returnAnalysisOf : List Component → Edit Unit
  | [] => return ()
  | c :: cs => do
    supposeAll c.members
    settle c.members (c.members.length + 1)
    returnAnalysisOf cs

def returnAnalysis : Edit Unit := do
  returnAnalysisOf (← get).components.toList

end Edit

end MonadicIR
