import MonadicIR.Optimiser.Pass
import MonadicIR.Facts

namespace MonadicIR

namespace Program

/-- Follows blocks that only pass control on, up to the first that was visited before. The fuel
bounds the number of blocks that can still be visited. -/
def followGotos (p : Program) : Nat → List BlockId → Call → Except Fault Call
  | 0, _, c => .ok c
  | fuel + 1, visited, c => do
    let block ← p.block c.target
    match block.code with
    | .done (.call next) =>
      if block.isGoto && !visited.contains next.target then do
        let s ← ({} : Subst).bind block.params c.args
        p.followGotos fuel (next.target :: visited) (next.apply s)
      else return c
    | _ => return c

def bypass (p : Program) (c : Call) : Except Fault Call :=
  p.followGotos (p.blocks.size + 1) [c.target] c

/-- If the callee does nothing but a case on a parameter, and the constructor of the argument is
known: the argument, and the call that the case would make. -/
def shortCase (p : Program) (fs : Facts) (c : Call) : Except Fault (Option (Atom × Call)) := do
  let block ← p.block c.target
  match block.code with
  | .switch scrutinee alts =>
    match block.params.findIdx? fun x => scrutinee == .temp x with
    | none => return none
    | some i =>
      match c.args[i]? with
      | none => .error (.arityMismatch (.call c.target) block.params.length c.args.length)
      | some arg =>
        match (fs.ctorOf p arg).bind alts.select with
        | none => return none
        | some taken =>
          let s ← ({} : Subst).bind block.params c.args
          return some (arg, taken.apply s)
  | _ => return none

end Program

namespace Pass

/-- A call that leaves out blocks that only pass control on. -/
def bypassGoto (c : Call) : Pass (Option Call) := do
  let d ← look (·.bypass c)
  if d = c then return none
  report s!"{c.text} bypasses goto blocks to {d.text}"
  return some d

def shortCase (c : Call) (fs : Facts) : Pass (Option Call) := do
  match ← look fun p => p.shortCase fs c with
  | none => return none
  | some (arg, short) =>
    report s!"{c.text} skips its case on known {arg.text}, calling {short.text}"
    return some short

end Pass

end MonadicIR
