import MonadicIR.Algebra
import MonadicIR.Optimiser.Derive
import MonadicIR.Optimiser.Detour
import MonadicIR.Optimiser.Liveness
import MonadicIR.Optimiser.Tidy

namespace MonadicIR.Pass

variable (o : Options) (onCopy : BlockId → Pass Unit)

/-- A better call, where there is one. -/
def improveCall (fs : Facts) (c : Call) : Pass (Option Call) := do
  match ← shortCase c fs with
  | some short => return some ((← bypassGoto short).getD short)
  | none =>
    match ← callKnown o onCopy fs c with
    | some known => return some known
    | none => callSharing o c

/-- The tail of a known closure, in the place of entering it. -/
def enterKnown (f : Atom) (args : List Atom) (k : ClosureId) (stored : List Atom) : Pass Tail := do
  let closure ← look (·.closure k)
  let s ← look fun _ => ({} : Subst).bind closure.stored stored
  if closure.params.length ≠ args.length then
    throw (.fault (.arityMismatch (.entry k) closure.params.length args.length))
  report s!"{(Tail.enter f args).text} enters known closure {k.text}"
  return closure.tail.apply (s.extendAll closure.params args)

/-- A better tail, where there is one. -/
def improveTail (fs : Facts) (t : Tail) : Pass (Option Tail) := do
  match t with
  | .sel ctor field a =>
    match fs.tailOf (← get).program a with
    | some (.data c args) =>
      match if c.same ctor then args[field]? else none with
      | some value =>
        report s!"{t.text} selects known field {value.text}"
        return some (.ret [value])
      | none => return none
    | _ => return none
  | .enter f args =>
    match fs.tailOf (← get).program f with
    | some (.closure k stored) => return some (← enterKnown f args k stored)
    | _ => return none
  | .closure k args => allocateKnown o onCopy fs k args
  | .call c => return (← improveCall o onCopy fs c).map Tail.call
  | .prim p args =>
    match p.simplify fs args with
    | some simpler =>
      report s!"{t.text} simplifies to {simpler.text}"
      return some simpler
    | none => return none
  | .ret _ | .data .. => return none

/-- Improves the tail at the end of code, a limited number of times. -/
def finish (fs : Facts) (s : Subst) : Nat → Tail → Pass Tail
  | 0, t => return t.apply s
  | fuel + 1, t => do
    let t := t.apply s
    match ← improveTail o onCopy fs t with
    | some better => finish fs s fuel better
    | none => return t

/-- What becomes of a binding. -/
inductive Settled where
  /-- It goes away, and its variables are replaced. -/
  | dropped (s : Subst)
  | kept (tail : Tail) (s : Subst)

/-- Improves a binding, a limited number of times, until it is not needed or nothing changes. -/
def settleBind (fs : Facts) (vars : List Temp) (fuel : Nat) (tail : Tail) (s : Subst) :
    Pass Settled := do
  let tail := tail.apply s
  let s := s.remove vars
  match reusable? fs vars tail with
  | some (v, u) =>
    report s!"reuse {u.text} for {v.text} <- {tail.text}"
    return .dropped (s.extend v (.temp u))
  | none =>
    match returned? vars tail with
    | some args =>
      report s!"left monad law for {tail.text}"
      return .dropped (s.extendAll vars args)
    | none =>
      match fuel with
      | 0 => return .kept tail s
      | fuel + 1 =>
        match ← improveTail o onCopy fs tail with
        | some better => settleBind fs vars fuel better s
        | none => return .kept tail s
where
  /-- A single variable, and another that already holds what it is bound to. -/
  reusable? (fs : Facts) (vars : List Temp) (tail : Tail) : Option (Temp × Temp) :=
    match vars with
    | [v] => if v.isWildcard then none else (fs.find tail).map fun u => (v, u)
    | _ => none
  returned? (vars : List Temp) : Tail → Option (List Atom)
    | .ret args => if args.length = vars.length then some args else none
    | _ => none

/-- The facts after a binding. -/
def factsAfter (fs : Facts) (vars : List Temp) (tail : Tail) : Facts :=
  let fs := fs.kill vars
  let fs := if tail.hasNoEffect then fs else fs.killNonPure
  match vars with
  | [v] => if tail.isRepeatable && !tail.mentions v then fs.add v tail else fs
  | _ => fs

/-- Improves one branch of a conditional, where the value of the test is known. -/
def flowBranch (fs : Facts) (test : Atom) (value : Bool) (c : Call) : Pass Call := do
  let c ← match test with
    | .temp t =>
      if c.args.contains test then do
        let c := c.apply (({} : Subst).extend t (.flag value))
        report s!"pass {flagText value} for {t.text} to {c.target.text}"
        pure c
      else pure c
    | _ => pure c
  return (← improveCall o onCopy fs c).getD c

/-- The flag that a call returns, if the callee does nothing else. -/
def returnedFlag (c : Call) : Pass (Option Bool) := do
  if c.args.isEmpty then
    match (← look (·.block c.target)).code with
    | .done (.ret [.flag b]) => return some b
    | _ => return none
  else return none

def flowBranches (fs : Facts) (test : Atom) (yes no : Call) : Pass Code := do
  let yes ← flowBranch o onCopy fs test true yes
  let no ← flowBranch o onCopy fs test false no
  let ifYes ← returnedFlag yes
  let ifNo ← returnedFlag no
  match ifYes, ifNo with
  | some true, some false =>
    report s!"if {test.text} returns its test"
    return .done (.ret [test])
  | some false, some true =>
    report s!"if {test.text} returns its negated test"
    return .done (.prim .bnot [test])
  | some b, some _ =>
    report s!"both branches of if {test.text} return {flagText b}"
    return .done (.ret [.flag b])
  | _, _ => return .branch test yes no

def flowIf (fs : Facts) (fuel : Nat) (test : Atom) (yes no : Call) : Pass Code := do
  match test with
  | .flag b =>
    let taken := if b then yes else no
    report s!"if {flagText b} takes {taken.text}"
    return .done (← finish o onCopy fs {} fuel (.call taken))
  | .temp t =>
    match fuel, fs.lookupTail t with
    | fuel + 1, some (.prim .bnot [negated]) =>
      report s!"if on negated {negated.text} swaps branches"
      flowIf fs fuel negated no yes
    | _, _ => flowBranches o onCopy fs test yes no
  | _ => flowBranches o onCopy fs test yes no

def flowArms (fs : Facts) (scrutinee : Atom) : List Arm → Pass (List Arm)
  | [] => return []
  | arm :: arms => do
    let known := match scrutinee with
      | .temp t => fs.addCtor t arm.ctor
      | _ => fs
    let call := (← improveCall o onCopy known arm.call).getD arm.call
    return ⟨arm.ctor, call⟩ :: (← flowArms fs scrutinee arms)

def flowDefault (fs : Facts) : Option Call → Pass (Option Call)
  | none => return none
  | some c => return some ((← improveCall o onCopy fs c).getD c)

def flowCase (fs : Facts) (fuel : Nat) (scrutinee : Atom) (alts : Alts) : Pass Code := do
  match (fs.ctorOf (← get).program scrutinee).bind alts.select with
  | some taken =>
    report s!"case on known {scrutinee.text} takes {taken.text}"
    return .done (← finish o onCopy fs {} fuel (.call taken))
  | none =>
    let default ← flowDefault o onCopy fs alts.default
    let arms ← flowArms o onCopy fs scrutinee alts.arms
    return .switch scrutinee ⟨arms, default⟩

/-- Improves code from its start, given the facts there and what replaces dropped variables. -/
def flowCode : Code → Facts → Subst → Pass Code
  | .bind vars tail rest, fs, s => do
    match ← settleBind o onCopy fs vars o.attempts tail s with
    | .dropped s => flowCode rest fs s
    | .kept tail s => return .bind vars tail (← flowCode rest (factsAfter fs vars tail) s)
  | .done t, fs, s => return .done (← finish o onCopy fs s o.attempts t)
  | .assert a ctor rest, fs, s => do
    let a := s.apply a
    if ((fs.ctorOf (← get).program a).any (·.same ctor)) then
      report s!"assert {a.text} {ctor.name} already known"
      flowCode rest fs s
    else
      let fs := match a with
        | .temp t => fs.addCtor t ctor
        | _ => fs
      return .assert a ctor (← flowCode rest fs s)
  | .branch test yes no, fs, s =>
    flowIf o onCopy fs o.attempts (s.apply test) (yes.apply s) (no.apply s)
  | .switch a alts, fs, s =>
    flowCase o onCopy fs o.attempts (s.apply a) (alts.mapCalls (Call.apply s))

/-- Improves the body of a block and removes what it no longer needs. -/
def flowBlock : Nat → BlockId → Pass Unit
  | 0, _ => throw .exhausted
  | fuel + 1, b => do
    let previous := (← get).current
    workOn (some (.block b))
    let code ← flowCode o (flowBlock fuel) (← look (·.block b)).code {} {}
    let code ← tidy (← liveness code)
    edit (Edit.modifyBlock b fun block => { block with code })
    workOn previous

/-- Improves the tail of a closure or top-level, which has to stay a single tail. -/
def flowTail (t : Tail) : Pass (Option Tail) := do
  let better ← finish o onCopy {} {} o.attempts (← replaceTops t)
  return if better.same t then none else some better

def flowDefn (fuel : Nat) (d : DefnId) : Pass Unit := do
  workOn (some d)
  match d with
  | .block b => flowBlock o fuel b
  | .closure k =>
    match ← flowTail o (flowBlock o fuel) (← look (·.closure k)).tail with
    | some tail => edit (Edit.modifyClosure k fun closure => { closure with tail })
    | none => return ()
  | .top t =>
    match ← flowTail o (flowBlock o fuel) (← look (·.top t)).tail with
    | some tail => edit (Edit.modifyTop t fun top => { top with tail })
    | none => return ()

/-- Goes through all retained definitions. -/
def flow (fuel : Nat) : Pass Unit := do
  forEach (flowDefn o fuel) (← get).program.defns
  workOn none

end MonadicIR.Pass
