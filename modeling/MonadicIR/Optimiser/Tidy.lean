import MonadicIR.Optimiser.Pass
import MonadicIR.Returning

namespace MonadicIR

namespace Code

/-- Does the code return exactly what was bound to `vars`? -/
def returnsVars (vars : List Temp) : Code → Bool
  | done (.ret atoms) => vars.all (!·.isWildcard) && atoms == vars.map Atom.temp
  | _ => false

/-- The call that all branches agree on. -/
def agreed? : List Call → Option Call
  | [] => none
  | c :: cs => if cs.all (· == c) then some c else none

def tidy (p : Program) : Code → Except Fault (Code × List String)
  | bind vars tail rest => do
    if tail.blackholes || (← p.tailNeverReturns tail) then
      return (done tail, ["nothing runs after " ++ tail.text])
    let (rest, reports) ← rest.tidy p
    if vars.all Temp.isWildcard && tail.hasNoEffect then
      return (rest, ("dropped unused " ++ tail.text) :: reports)
    if rest.returnsVars vars then
      return (done tail, reports ++ ["right monad law for " ++ tail.text])
    return (bind vars tail rest, reports)
  | assert a ctor rest =>
    (rest.tidy p).map fun (rest, reports) => (assert a ctor rest, reports)
  | branch test yes no =>
    .ok <|
      if yes = no then (jump yes, [s!"if {test.text} has identical branches"])
      else (branch test yes no, [])
  | switch a alts =>
    .ok <|
      match agreed? alts.calls with
      | some c => (jump c, [s!"case {a.text} has identical branches"])
      | none => (switch a alts, [])
  | done t => .ok (done t, [])

/-- Does the code do nothing before it enters a block that `enters` says goes on so? -/
def idles (enters : BlockId → Except Fault Bool) : Code → Except Fault Bool
  | done (.call c) => enters c.target
  | done _ => .ok false
  | bind _ (.call c) _ => enters c.target
  | bind _ tail rest => if tail.hasNoEffect then rest.idles enters else .ok false
  | assert _ _ rest => rest.idles enters
  | branch .. | switch .. => .ok false

end Code

namespace Program

/-- Does `b` lead back to a visited block of the component of `src`, with nothing done on the way?
The fuel bounds the number of blocks that can still be visited. -/
def blockIdles (p : Program) (src : BlockId) : Nat → List BlockId → BlockId → Except Fault Bool
  | 0, _, _ => .ok false
  | fuel + 1, visited, b =>
    if visited.contains b then .ok true
    else do
      if ← p.inOtherComponent b (.block src) then return false
      (← p.block b).code.idles (p.blockIdles src fuel (b :: visited))

/-- Does `code`, the body of `src`, certainly go round in circles without doing anything? -/
def loopsForever (p : Program) (src : BlockId) (code : Code) : Except Fault Bool := do
  if ← p.isRecursive (.block src) then
    code.idles (p.blockIdles src (p.blocks.size + 1) [src])
  else return false

end Program

namespace Pass

def tidy (code : Code) : Pass Code := do
  announce (← look fun p => code.tidy p)

end Pass

end MonadicIR
