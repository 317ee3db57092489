import MonadicIR.Program

namespace MonadicIR

namespace FlowGraph

inductive LabelKind where
  /-- The code of a block of this graph. -/
  | code (b : BlockId)
  /-- A call of another function, whose result is returned. -/
  | call (c : Call)
  /-- Passes control on to a label of this graph. -/
  | goto (target : Nat)
deriving DecidableEq, Repr

/-- Where an edge comes from. -/
inductive Source where
  | entry
  | label (i : Nat)
deriving DecidableEq, Repr

structure Pred where
  source : Source
  args : List Atom
deriving DecidableEq, Repr

/-- Merges what the predecessors pass for a parameter. -/
structure Phi where
  param : Temp
  incoming : List (String × Atom)
deriving DecidableEq, Repr

def Phi.text (phi : Phi) : String :=
  let incoming := phi.incoming.map fun (name, a) => s!"{name}: {a.text}"
  s!"{phi.param.text} = phi({commas incoming})"

structure Label where
  /-- Unique among all graphs that are built together. -/
  num : Nat
  kind : LabelKind
  preds : List Pred
  succs : List Nat := []
  phis : List Phi := []
deriving DecidableEq, Repr

def Label.name (l : Label) : String :=
  match l.kind with
  | .code b => b.text
  | .call _ => s!"c{l.num}"
  | .goto _ => s!"g{l.num}"

inductive Kind where
  /-- A block that is a function, with names of its own for the parameters. -/
  | block (b : BlockId) (params : List Temp) (entrypoint : Bool)
  | closure (k : ClosureId)
  /-- Computes the top-level values that need code to run. -/
  | init
deriving DecidableEq, Repr

def Kind.name : Kind → String
  | block b _ true => b.text
  | block b _ false => "func_" ++ b.text
  | closure k => "func_" ++ k.text
  | init => "init"

end FlowGraph

structure FlowGraph where
  num : Nat
  kind : FlowGraph.Kind
  labels : Array FlowGraph.Label
  /-- The labels that the start leads to. -/
  entry : List Nat
  included : List BlockId
  /-- What the parameters of labels with a single predecessor stand for. -/
  renames : Subst
deriving DecidableEq, Repr

namespace FlowGraph

def name (g : FlowGraph) : String := g.kind.name

def labelName (labels : Array Label) (i : Nat) : String := (labels[i]?).elim "?" Label.name

def sourceName (kind : Kind) (labels : Array Label) : Source → String
  | .entry => kind.name
  | .label i => labelName labels i

def summary (g : FlowGraph) : String :=
  let names := g.labels.toList.map fun l => " " ++ l.name
  g.name ++ ": \x7b" ++ String.join names ++ " \x7d"

def labelNames (g : FlowGraph) (is : List Nat) : String := commas (is.map (labelName g.labels))

def labelDetails (g : FlowGraph) (l : Label) : List String :=
  let does :=
    match l.kind with
    | .code _ => ""
    | .call c => " calls " ++ c.text
    | .goto target => " goes to " ++ g.labelNames [target]
  let preds := commas (l.preds.map fun x => sourceName g.kind g.labels x.source)
  let succs := if l.succs.isEmpty then "" else " -> " ++ g.labelNames l.succs
  s!"  {l.name}{does} (from {preds}){succs}" :: l.phis.map fun phi => "    " ++ phi.text

/-- A line for the start, and one for each label and each merge. -/
def details (g : FlowGraph) : List String :=
  let start :=
    match g.kind with
    | .block _ params _ => s!"{g.name}[{tempsText params}] -> {g.labelNames g.entry}"
    | _ => s!"{g.name} -> {g.labelNames g.entry}"
  start :: g.labels.toList.flatMap g.labelDetails

end FlowGraph

end MonadicIR
