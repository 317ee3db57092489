import MonadicIR.FlowGraph.Basic

namespace MonadicIR.FlowGraph

def blockAttrs : String := "style=filled, fillcolor=lightblue"

def Label.attrs (l : Label) : String :=
  match l.kind with
  | .code _ => blockAttrs
  | .call _ => "style=filled, fillcolor=palegreen"
  | .goto _ => "style=filled, fillcolor=thistle1"

def Kind.attrs : Kind → String
  | closure _ => "style=filled, fillcolor=white"
  | _ => blockAttrs

def nodeLine (num : Nat) (name attrs : String) : String :=
  s!"{num}[label=\"{name}\",{attrs}];"

def edgeLines (g : FlowGraph) (num : Nat) (targets : List Nat) : List String :=
  targets.filterMap fun i => (g.labels[i]?).map fun l => s!"{num} -> {l.num};"

def dotLines (g : FlowGraph) : List String :=
  nodeLine g.num g.name g.kind.attrs :: g.edgeLines g.num g.entry ++
    g.labels.toList.flatMap fun l =>
      nodeLine l.num l.name l.attrs :: g.edgeLines l.num l.succs

/-- One drawing for all graphs. -/
def dot (gs : List FlowGraph) : List String :=
  "digraph CFGs \x7b" :: gs.flatMap dotLines ++ ["\x7d"]

end MonadicIR.FlowGraph
