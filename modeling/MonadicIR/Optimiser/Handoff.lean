import MonadicIR.Optimiser.Derive
import MonadicIR.Returning
import MonadicIR.Scope

namespace MonadicIR

/-- What a copy does with the value that its source returns. -/
inductive Handoff where
  /-- Enter the closure that was passed last, with the value. -/
  | continuation
  /-- Enter the value, with the last `arity` arguments. -/
  | enter (arity : Nat)
deriving DecidableEq, Repr

namespace Handoff

def extras : Handoff → Nat
  | continuation => 1
  | enter arity => arity

def origin (depth : Nat) : Handoff → Origin
  | continuation => .continuation depth
  | enter arity => .entering arity depth

/-- The tail that hands over `v`. -/
def tail (extras : List Temp) (v : Temp) : Handoff → Tail
  | continuation => .enter (.temp (extras.headD .wildcard)) [.temp v]
  | enter _ => .enter (.temp v) (extras.map .temp)

end Handoff

namespace Pass

variable (h : Handoff) (extras : List Temp)

/-- A call of the copy of a callee, which gets the further arguments too. -/
def handOffCall (derive : BlockId → Pass BlockId) (c : Call) : Pass Call := do
  return ⟨← derive c.target, c.args ++ extras.map .temp⟩

def handOffArms (derive : BlockId → Pass BlockId) : List Arm → Pass (List Arm)
  | [] => return []
  | arm :: arms => do
    let call ← handOffCall extras derive arm.call
    return ⟨arm.ctor, call⟩ :: (← handOffArms derive arms)

def handOffDefault (derive : BlockId → Pass BlockId) : Option Call → Pass (Option Call)
  | none => return none
  | some c => return some (← handOffCall extras derive c)

/-- Code that hands on what it would have returned. Nothing is handed on where nothing returns. -/
def handOffCode (derive : BlockId → Pass BlockId) : Code → Pass Code
  | .bind vars tail rest => return .bind vars tail (← handOffCode derive rest)
  | .assert a ctor rest => return .assert a ctor (← handOffCode derive rest)
  | .done (.call c) => return .jump (← handOffCall extras derive c)
  | .done tail => do
    if tail.blackholes || (← look (·.tailNeverReturns tail)) then return .done tail
    let v ← edit Edit.fresh
    return .bind [v] tail (.done (h.tail extras v))
  | .branch test yes no => do
    let yes ← handOffCall extras derive yes
    let no ← handOffCall extras derive no
    return .branch test yes no
  | .switch a alts => do
    let arms ← handOffArms extras derive alts.arms
    let default ← handOffDefault extras derive alts.default
    return .switch a ⟨arms, default⟩

/-- The copy of `b` that hands its result on, made now if there is none. It is registered before its
body is made, so that jumps back to `b` find it; hence the fuel only has to bound the number of
blocks. -/
def deriveHandoff : Nat → BlockId → Pass BlockId
  | 0, _ => throw .exhausted
  | fuel + 1, b => do
    let block ← look (·.block b)
    let origin := h.origin (block.origin.depth + 1)
    match (← get).program.derivedBlock? block (· == origin) with
    | some d => return d
    | none =>
      let own ← edit (Edit.freshParams block.params)
      let extras ← edit (Edit.freshN h.extras)
      let (code, _) ← edit (Edit.copyFresh block.code (({} : Subst).renameAll block.params own))
      let d ← edit (Edit.addDerivedBlock b
        { Block.placeholder with params := own ++ extras, origin })
      let code ← handOffCode h extras (deriveHandoff fuel) code
      edit (Edit.modifyBlock d fun block => { block with code })
      return d

def handoffOf (b : BlockId) : Pass BlockId := do
  deriveHandoff h ((← get).program.blocks.size + 1) b

/-- Every copy also copies the blocks it branches to, so nothing it reaches may be recursive. -/
def continuationCandidate (o : Options) (b : BlockId) : Pass Bool := do
  let block ← look (·.block b)
  match block.code with
  | .done _ => return false
  | _ =>
    if block.origin.depth < o.deriveDepth then look (·.reachesNoRecursion (.block b))
    else return false

/-- Does the code do nothing but branch on `v`? -/
def branchesOn (v : Temp) : Code → Bool
  | .switch (.temp t) _ => t == v
  | .branch (.temp t) _ _ => t == v
  | _ => false

/-- A block for `rest`, and a closure that takes `v` and calls it; the closure stores the other
variables that `rest` reads, which are given too. -/
def addContinuation (v : Temp) (rest : Code) : Edit (ClosureId × List Temp) := do
  let free := rest.freeTemps
  let params ← Edit.freshLikeAll free
  let (code, _) ← Edit.copyFresh rest (({} : Subst).renameAll free params)
  let branch ← Edit.addBlock { params, code }
  let stored := free.filter (· != v)
  let fields ← Edit.freshLikeAll stored
  let arg ← Edit.freshLike v
  let s := (({} : Subst).renameAll stored fields).renameAll [v] [arg]
  let tail := .call ⟨branch, s.applyAll (free.map .temp)⟩
  let k ← Edit.addClosure { stored := fields, params := [arg], tail }
  return (k, stored)

/-- Replaces a call whose result is branched on by a call of a copy, which enters a closure that
holds the branch. -/
def pushCase (o : Options) (src : BlockId) (vars : List Temp) (c : Call) (rest : Code) :
    Pass (Option Code) := do
  match vars with
  | [v] =>
    if branchesOn v rest then
      if ← continuationCandidate o c.target then
        let (k, stored) ← edit (addContinuation v rest)
        let cont ← edit Edit.fresh
        let derived ← handoffOf .continuation c.target
        report s!"pushed case on {v.text} into {c.target.text} in {src.text}"
        return some (.bind [cont] (.closure k (stored.map .temp))
          (.jump ⟨derived, c.args ++ [.temp cont]⟩))
      else return none
    else return none
  | _ => return none

/-- The arguments that the code enters `f` with, if it does nothing else. -/
def entered? (f : Temp) : Code → Option (List Atom)
  | .done (.enter (.temp g) args) => if g = f ∧ Atom.temp f ∉ args then some args else none
  | _ => none

/-- Replaces a call whose result is entered by a call of a copy that enters it. -/
def pushEnter (o : Options) (src : BlockId) (vars : List Temp) (c : Call) (rest : Code) :
    Pass (Option Code) := do
  match vars with
  | [f] =>
    match entered? f rest with
    | some args =>
      let block ← look (·.block c.target)
      if block.origin.depth < o.deriveDepth then
        let derived ← handoffOf (.enter args.length) c.target
        report s!"pushed enter into {c.target.text} in {src.text}"
        return some (.jump ⟨derived, c.args ++ args⟩)
      else return none
    | none => return none
  | _ => return none

end Pass

end MonadicIR
