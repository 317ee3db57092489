import MonadicIR.Optimiser.Pass

namespace MonadicIR

namespace Program

/-- The atom that a reference to a top-level stands for, if its definition only returns it. -/
def topValue? (p : Program) : Atom → Option Atom
  | .top r => do
    let top ← p.tops[r.top.index]?
    match top.tail with
    | .ret values =>
      let value ← values[r.index]?
      if (value.isConstant || value.top?.isSome) && value != .top r then some value else none
    | _ => none
  | _ => none

def replaceTop (p : Program) (a : Atom) : Atom := (p.topValue? a).getD a

def replaceTopReports (p : Program) (as : List Atom) : List String :=
  as.filterMap fun a => (p.topValue? a).map fun v => s!"replace {a.text} with {v.text}"

end Program

namespace Tail

def replaceTops (p : Program) (t : Tail) : Tail × List String :=
  (t.mapAtoms p.replaceTop, p.replaceTopReports t.atoms)

end Tail

namespace Call

def replaceTops (p : Program) (c : Call) : Call := ⟨c.target, c.args.map p.replaceTop⟩

end Call

namespace Code

/-- The variables that are live, others as wildcards. -/
def keepLive (live vars : List Temp) : List Temp :=
  vars.map fun v => if v.isWildcard || live.contains v then v else .wildcard

def deadReports (live vars : List Temp) : List String :=
  (vars.filter fun v => !(v.isWildcard || live.contains v)).map fun v => v.text ++ " is never used"

/-- The code without what is dead, the variables that are live before it, and the reports. -/
def liveness (p : Program) : Code → Code × List Temp × List String
  | done t =>
    let (t, reports) := t.replaceTops p
    (done t, t.temps, reports)
  | bind vars tail rest =>
    let (rest, live, reports) := rest.liveness p
    let (tail, tops) := tail.replaceTops p
    let vars' := keepLive live vars
    let reports := reports ++ tops ++ deadReports live vars
    if vars'.all Temp.isWildcard && tail.hasNoEffect then
      (rest, live, reports ++ ["dropped unused " ++ tail.text])
    else (bind vars' tail rest, live.filter (!vars'.contains ·) ++ tail.temps, reports)
  | assert a ctor rest =>
    let (rest, live, reports) := rest.liveness p
    match a with
    | .temp t =>
      if live.contains t then (assert a ctor rest, live, reports)
      else (rest, live, reports ++ [s!"assert {t.text} {ctor.name} is never used"])
    | a => (assert a ctor rest, live, reports)
  | branch test yes no =>
    let code := branch (p.replaceTop test) (yes.replaceTops p) (no.replaceTops p)
    (code, code.atoms.filterMap Atom.temp?, p.replaceTopReports (branch test yes no).atoms)
  | switch a alts =>
    let code := switch (p.replaceTop a) (alts.mapCalls (Call.replaceTops p))
    (code, code.atoms.filterMap Atom.temp?, p.replaceTopReports (switch a alts).atoms)

end Code

namespace Pass

def liveness (code : Code) : Pass Code := do
  let (code, _, reports) := code.liveness (← get).program
  announce (code, reports)

def replaceTops (t : Tail) : Pass Tail := do
  announce (t.replaceTops (← get).program)

end Pass

end MonadicIR
