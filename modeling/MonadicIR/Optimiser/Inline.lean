import MonadicIR.Optimiser.Cases
import MonadicIR.Optimiser.Detour
import MonadicIR.Optimiser.Handoff
import MonadicIR.Optimiser.Tidy

namespace MonadicIR

namespace Code

/-- The length of a body for a call in the middle of code: one for each binding and for the tail.
A body that branches or never completes has none. -/
def prefixLength? : Code → Option Nat
  | done t => if t.blackholes then none else some 1
  | bind _ tail rest => if tail.blackholes then none else rest.prefixLength?.map (· + 1)
  | assert _ _ rest => rest.prefixLength?
  | branch .. | switch .. => none

/-- The length of a body for a call at the end of code. A branch counts for one. -/
def suffixLength : Code → Nat
  | bind _ _ rest => rest.suffixLength + 1
  | assert _ _ rest => rest.suffixLength
  | done _ | branch .. | switch .. => 1

def isDone : Code → Bool
  | done _ => true
  | _ => false

end Code

namespace Program

/-- Can `src` not be reached again from `b` by the ends of blocks alone, without a branch? If it
can, inlining would unroll a loop. The fuel bounds the number of blocks that can still be visited. -/
def guardedFrom (p : Program) (src : BlockId) : Nat → List BlockId → BlockId → Except Fault Bool
  | 0, _, _ => .ok true
  | fuel + 1, visited, b =>
    if b = src then .ok false
    else if visited.contains b then .ok true
    else do
      if ← p.inOtherComponent b (.block src) then return true
      match (← p.block b).code.endTail? with
      | some (.call c) => p.guardedFrom src fuel (b :: visited) c.target
      | _ => return true

def guarded (p : Program) (src b : BlockId) : Except Fault Bool :=
  p.guardedFrom src (p.blocks.size + 1) [] b

end Program

namespace Pass

variable (o : Options)

/-- The body of the callee with the arguments in place of the parameters and fresh variables. -/
def instantiate (c : Call) : Pass Code := do
  let block ← look (·.block c.target)
  let s ← look fun _ => ({} : Subst).bind block.params c.args
  return (← edit (Edit.copyFresh block.code s)).1

/-- Puts the body of the callee before the code that waits for its result. -/
def inlinePrefix (src : BlockId) (vars : List Temp) (c : Call) (rest : Code) :
    Pass (Option Code) := do
  if ← look (·.inOtherComponent c.target (.block src)) then
    let block ← look (·.block c.target)
    match block.code.prefixLength? with
    | some n =>
      if block.notes.occurs ≠ 1 ∧ o.inlineLines < n then return none
      let body ← instantiate c
      let code ← look fun _ => body.andThen vars rest
      report s!"inlined {c.target.text} at the start of {src.text}"
      return some code
    | none => return none
  else return none

/-- Is it right to put the body of `b` at the end of `src`? -/
def suffixFits (src b : BlockId) : Pass Bool := do
  let block ← look (·.block b)
  let endless ← if block.notes.neverReturns then look (·.isRecursive (.block b)) else pure false
  if endless then return false
  if block.notes.occurs = 1 ∨ block.code.isDone then return true
  if ← look (·.guarded src b) then return block.code.suffixLength ≤ o.inlineLines
  return false

/-- Puts the body of the callee in the place of a call at the end. -/
def inlineSuffix (src : BlockId) (c : Call) : Pass (Option Code) := do
  if (← suffixFits o src c.target) && c.target != src then
    let code ← instantiate c
    report s!"inlined {c.target.text} at the end of {src.text}"
    return some code
  else return none

def bypassed (c : Call) : Pass Call := do
  return (← bypassGoto c).getD c

def bypassArms : List Arm → Pass (List Arm)
  | [] => return []
  | arm :: arms => do
    let call ← bypassed arm.call
    return ⟨arm.ctor, call⟩ :: (← bypassArms arms)

def bypassDefault : Option Call → Pass (Option Call)
  | none => return none
  | some c => return some (← bypassed c)

/-- The first of the ways to do without a call in the middle of code. -/
def inlineCall (src : BlockId) (vars : List Temp) (c : Call) (rest : Code) :
    Pass (Option Code) := do
  match ← inlinePrefix o src vars c rest with
  | some code => return some code
  | none =>
    match ← pushEnter o src vars c rest with
    | some code => return some code
    | none => pushCase o src vars c rest

/-- Goes through code of `src` up to the first place where something is inlined. What comes of that
is handed to `again`, as there may be more to inline; it may happen `limit` times in a row. -/
def inlineStatements (src : BlockId) (again : Code → Nat → Pass Code) : Code → Nat → Pass Code
  | .bind vars tail rest, limit => do
    let inlined ← match limit, tail with
      | _ + 1, .call c => inlineCall o src vars c rest
      | _, _ => pure none
    match inlined with
    | some code => again code (limit - 1)
    | none =>
      let rest ← inlineStatements src again rest o.inlineNesting
      let tail ← match tail with
        | .call c => Tail.call <$> bypassed c
        | tail => pure tail
      return .bind vars tail rest
  | .assert a ctor rest, limit => return .assert a ctor (← inlineStatements src again rest limit)
  | .done (.call c), limit => do
    let c ← bypassed c
    match limit with
    | 0 => return .jump c
    | limit + 1 =>
      match ← inlineSuffix o src c with
      | some code => again code limit
      | none => return .jump c
  | .done tail, _ => return .done tail
  | .branch test yes no, _ => do
    let yes ← bypassed yes
    let no ← bypassed no
    return .branch test yes no
  | .switch a alts, _ => do
    let arms ← bypassArms alts.arms
    let default ← bypassDefault alts.default
    return .switch a ⟨arms, default⟩

/-- Inlines in code of `src`, at most `limit` times in a row at one place. The fuel bounds how often
something is inlined on the way. -/
def inlineCode (src : BlockId) : Nat → Code → Nat → Pass Code
  | 0, _, _ => throw .exhausted
  | fuel + 1, code, limit => inlineStatements o src (inlineCode src fuel) code limit

/-- Tidies a block, and inlines in its body. Calls of a block that only passes control on are led
past it instead. -/
def inlineBlock (fuel : Nat) (b : BlockId) : Pass Unit := do
  let block ← look (·.block b)
  if block.isGoto && !(← get).program.isEntrypoint (.block b) then return ()
  let code ← simplifyCode (← tidy block.code)
  let code ← if ← look fun p => p.loopsForever b code then do
      report s!"{b.text} loops forever"
      pure (.done (.prim .loop []))
    else pure code
  let code ← inlineCode o b fuel code o.inlineNesting
  edit (Edit.modifyBlock b fun block => { block with code })

/-- Inlines into a tail that has to stay one, if the callee does nothing but compute a tail. -/
def inlineTail : Tail → Pass (Option Tail)
  | .call c => do
    let bypassed ← bypassGoto c
    let c := bypassed.getD c
    let block ← look (·.block c.target)
    match block.code with
    | .done body =>
      let s ← look fun _ => ({} : Subst).bind block.params c.args
      report s!"inlined {c.target.text} into a tail"
      return some (body.apply s)
    | _ => return bypassed.map Tail.call
  | _ => return none

def inlineDefn (fuel : Nat) (d : DefnId) : Pass Unit := do
  workOn (some d)
  match d with
  | .block b => inlineBlock o fuel b
  | .closure k =>
    match ← inlineTail (← look (·.closure k)).tail with
    | some tail => edit (Edit.modifyClosure k fun closure => { closure with tail })
    | none => return ()
  | .top t =>
    match ← inlineTail (← look (·.top t)).tail with
    | some tail => edit (Edit.modifyTop t fun top => { top with tail })
    | none => return ()

/-- Goes through the components, callees first, so that callers see bodies that are done. -/
def inlining (fuel : Nat) : Pass Unit := do
  edit Edit.returnAnalysis
  forEach (inlineDefn o fuel) ((← get).program.components.toList.flatMap Component.members)
  workOn none

end Pass

end MonadicIR
