import MonadicIR.Check
import MonadicIR.Optimiser.Flow
import MonadicIR.Optimiser.Inline
import MonadicIR.Optimiser.Merge
import MonadicIR.Optimiser.Unused

namespace MonadicIR

/-- What a run of the optimiser amounts to. -/
structure Stats where
  passes : Nat
  changes : Nat
  sizeBefore : Nat
  sizeAfter : Nat
deriving DecidableEq, Repr

namespace Pass

variable (o : Options) (fuel : Nat)

def inlineRound : Pass Unit := do
  if o.inlining then
    inlining o fuel
    shake

def flowRound : Pass Unit := do
  if o.flow then
    flow o fuel
    shake

def startRound : Pass Unit := modify fun s => { s with count := 0 }

def mainRound : Pass Unit := do
  startRound
  inlineRound o fuel
  unusedArgs
  shake
  flowRound o fuel

/-- Repeats rounds while they change something and the number of passes allows, and gives that
number. There is always a first round. -/
def mainLoop : Nat → Nat → Pass Nat
  | 0, passes => return passes
  | left + 1, passes => do
    mainRound o fuel
    let passes := passes + 1
    if (← get).count = 0 ∨ o.maxPasses ≤ passes then return passes
    mainLoop left passes

/-- A round of the second kind. Did it change more than merging alone? -/
def mergeRound : Pass Bool := do
  startRound
  if o.merging then collapse
  let merged := (← get).count
  shake
  inlineRound o fuel
  flowRound o fuel
  return (← get).count ≠ merged

def mergeLoop : Nat → Nat → Pass Nat
  | 0, passes => return passes
  | left + 1, passes => do
    let more ← mergeRound o fuel
    let passes := passes + 1
    if (← get).count = 0 ∨ !more ∨ o.maxPasses ≤ passes then return passes
    mergeLoop left passes

/-- Runs the whole pipeline. The fuel bounds how deep flow and inlining may nest. -/
def optimise : Pass Stats := do
  look Program.check
  shake
  simplifyCases
  let sizeBefore := (← get).program.size
  let passes ← mainLoop o fuel (o.maxPasses + 1) 0
  let passes ← mergeLoop o fuel (o.maxPasses + 1) passes
  workOn none
  look Program.check
  let s ← get
  return { passes, changes := s.log.size, sizeBefore, sizeAfter := s.program.size }

end Pass

namespace Program

/-- Deep enough for any nesting that comes to an end in practice. -/
def defaultFuel : Nat := 1000000

/-- Optimises a program. The workbench afterwards holds the program and the changes, also after a
failure. -/
def optimise (p : Program) (o : Options := {}) (fuel : Nat := defaultFuel) :
    EStateM.Result Failure Workbench Stats :=
  Pass.optimise o fuel { program := p }

def shake (p : Program) : EStateM.Result Failure Workbench Unit := Pass.shake { program := p }

end Program

end MonadicIR
