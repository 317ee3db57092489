import MonadicIR.Optimiser.Pass

namespace MonadicIR

namespace Alts

/-- Does each constructor of the type have an arm? -/
def covers (alts : Alts) (family : Nat) : Bool :=
  (List.range family).all fun tag => alts.arms.any fun arm => arm.ctor.tag == tag

/-- Alternatives with a tighter default, and what was done to it. -/
def tighten (p : Program) (alts : Alts) : Except Fault (Alts × List String) :=
  match alts.arms, alts.default with
  | first :: _, some c =>
    if alts.covers first.ctor.family then
      .ok (⟨alts.arms, none⟩, ["default of a case covering every constructor removed"])
    else if alts.arms.length + 1 = first.ctor.family then do
      let siblings ← p.siblings first.ctor
      match siblings.find? fun d => !alts.arms.any fun arm => arm.ctor.same d with
      | some d =>
        return (⟨alts.arms ++ [⟨d, c⟩], none⟩, ["default of a case now matches " ++ d.name])
      | none => return (alts, [])
    else .ok (alts, [])
  | _, _ => .ok (alts, [])

/-- The call to make if the alternatives leave no choice. -/
def only? (alts : Alts) : Option Call :=
  match alts.arms, alts.default with
  | [], some c => some c
  | [arm], none => if arm.ctor.family = 1 then some arm.call else none
  | _, _ => none

end Alts

namespace Code

/-- Simplifies the case that may stand at the end, and reports what was done. -/
def simplifyCases (p : Program) : Code → Except Fault (Code × List String)
  | bind vars tail rest =>
    (rest.simplifyCases p).map fun (rest, reports) => (bind vars tail rest, reports)
  | assert a ctor rest =>
    (rest.simplifyCases p).map fun (rest, reports) => (assert a ctor rest, reports)
  | switch a alts => do
    let (alts, reports) ← alts.tighten p
    match alts.only? with
    | some c => return (jump c, reports ++ [s!"case {a.text} has a single branch"])
    | none => return (switch a alts, reports)
  | done t => .ok (done t, [])
  | branch test yes no => .ok (branch test yes no, [])

end Code

namespace Pass

def simplifyCode (code : Code) : Pass Code := do
  announce (← look fun p => code.simplifyCases p)

def simplifyBlock : DefnId → Pass Unit
  | .block b => do
    workOn (some (.block b))
    let code ← simplifyCode (← look (·.block b)).code
    edit (Edit.modifyBlock b fun block => { block with code })
  | _ => return ()

/-- Simplifies the cases of all retained blocks. -/
def simplifyCases : Pass Unit := do
  forEach simplifyBlock (← get).program.defns
  workOn none

end Pass

end MonadicIR
