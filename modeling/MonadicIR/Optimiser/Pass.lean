import MonadicIR.Component
import MonadicIR.Occurrence

namespace MonadicIR

structure Options where
  /-- The rounds of both loops together. -/
  maxPasses : Nat := 42
  /-- How often inlining may follow up at one place. -/
  inlineNesting : Nat := 3
  /-- The longest body that is copied into several callers. -/
  inlineLines : Nat := 6
  /-- The longest block that joins the graphs of its callers. -/
  smallBlock : Nat := 4
  /-- How often a copy may be copied for what is known of its arguments. -/
  deriveDepth : Nat := 4
  /-- How often a tail is changed at one place before flow goes on. -/
  attempts : Nat := 32
  inlining : Bool := true
  flow : Bool := true
  merging : Bool := true
deriving DecidableEq, Repr

/-- A single change, and the definition that was being worked on. -/
structure Change where
  defn : Option DefnId
  description : String
deriving DecidableEq, Repr

def Change.text (c : Change) : String :=
  match c.defn with
  | some d => s!"{d.text}: {c.description}"
  | none => c.description

inductive Failure where
  | fault (f : Fault)
  | rejected (complaints : List Complaint)
  /-- A definition that would have to be redirected is not there. -/
  | dangling (d : DefnId)
  /-- The work was given up before it came to an end. -/
  | exhausted
deriving DecidableEq, Repr

def Failure.message : Failure → String
  | fault f => "internal error: " ++ f.message
  | rejected cs =>
    s!"{cs.length} error(s) in the source program: " ++ "; ".intercalate (cs.map Complaint.message)
  | dangling d => d.text ++ " cannot be redirected, as it is not there"
  | exhausted => "the optimiser did not come to an end"

structure Workbench where
  program : Program
  current : Option DefnId := none
  log : Array Change := #[]
  /-- The changes of the current round. -/
  count : Nat := 0
deriving DecidableEq, Repr

/-- What was done before a failure stays done. -/
abbrev Pass := EStateM Failure Workbench

namespace Pass

def edit {α : Type} (e : Edit α) : Pass α := fun ⟨program, current, log, count⟩ =>
  match e program with
  | .ok a program => .ok a ⟨program, current, log, count⟩
  | .error f program => .error (.fault f) ⟨program, current, log, count⟩

/-- Looks at the program, which may show a fault. -/
def look {α : Type} (f : Program → Except Fault α) : Pass α := edit (Edit.read f)

def workOn (d : Option DefnId) : Pass Unit := modify fun s => { s with current := d }

def report (description : String) : Pass Unit := modify fun s =>
  { s with log := s.log.push ⟨s.current, description⟩, count := s.count + 1 }

def reportAll : List String → Pass Unit
  | [] => return ()
  | r :: rs => do
    report r
    reportAll rs

/-- A result together with the reports that led to it. -/
def announce {α : Type} (r : α × List String) : Pass α := do
  reportAll r.2
  return r.1

def forEach {α : Type} (f : α → Pass Unit) : List α → Pass Unit
  | [] => return ()
  | a :: as => do
    f a
    forEach f as

/-- Computes the components and counts the references. -/
def shake : Pass Unit := do
  let complaints ← edit Edit.computeComponents
  if complaints.isEmpty then edit Edit.countOccurrences
  else throw (.rejected complaints)

end Pass

end MonadicIR
