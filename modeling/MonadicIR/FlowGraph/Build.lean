import MonadicIR.FlowGraph.Basic

namespace MonadicIR

namespace FlowGraph

variable (p : Program) (small : Nat)

/-- Short straight-line code, which may be repeated in each graph that jumps to it. -/
def isSmall (b : BlockId) : Except Fault Bool := do
  if ← p.isRecursive (.block b) then return false
  return (← p.block b).code.isSmall small

/-- Is `b`, which `src` jumps to, a function of its own and no part of the graph? -/
def staysOut (src : DefnId) (b : BlockId) : Except Fault Bool := do
  let block ← p.block b
  if ← p.inOtherComponent b src then
    if block.notes.calls = 0 then return false
    return !(← isSmall p small b)
  else return false

/-- Adds `b` and the blocks that it leads to by jumps. The fuel bounds the number of blocks that can
still be added. -/
def includeBlock : Nat → DefnId → List BlockId → BlockId → Except Fault (List BlockId)
  | 0, _, included, _ => .ok included
  | fuel + 1, src, included, b =>
    if included.contains b then .ok included
    else do
      if ← staysOut p small src b then return included
      let calls := (← p.block b).code.endCalls
      calls.foldlM (fun included c => includeBlock fuel (.block b) included c.target)
        (included ++ [b])

def includeCall (src : DefnId) (included : List BlockId) (c : Call) :
    Except Fault (List BlockId) :=
  includeBlock p small (p.blocks.size + 1) src included c.target

/-- The labels of a graph while it is built, and the next number to give out. -/
structure Draft where
  next : Nat
  labels : Array Label := #[]

namespace Draft

def addLabel (d : Draft) (kind : LabelKind) (pred : Pred) : Nat × Draft :=
  (d.labels.size, ⟨d.next + 1, d.labels.push { num := d.next, kind, preds := [pred] }⟩)

def addPred (d : Draft) (i : Nat) (pred : Pred) : Draft :=
  { d with labels := d.labels.modify i fun l => { l with preds := l.preds ++ [pred] } }

def labelFor? (d : Draft) (b : BlockId) : Option Nat :=
  d.labels.findIdx? fun l => l.kind == .code b

def hasPred (d : Draft) (i : Nat) (source : Source) : Bool :=
  (d.labels[i]?).any fun l => l.preds.any fun x => x.source == source

/-- An edge to a block, and the label it arrives at. A second edge from the same place goes through
a goto, so that it can be told apart from the first. -/
def edge (included : List BlockId) (source : Source) (d : Draft) (c : Call) : Nat × Draft :=
  if included.contains c.target then
    match d.labelFor? c.target with
    | none => d.addLabel (.code c.target) ⟨source, c.args⟩
    | some target =>
      if d.hasPred target source then
        let (goto, d) := d.addLabel (.goto target) ⟨source, c.args⟩
        (goto, d.addPred target ⟨.label goto, c.args⟩)
      else (target, d.addPred target ⟨source, c.args⟩)
  else d.addLabel (.call c) ⟨source, c.args⟩

def edges (included : List BlockId) (source : Source) : Draft → List Call → List Nat × Draft
  | d, [] => ([], d)
  | d, c :: cs =>
    let (i, d) := d.edge included source c
    let (is, d) := edges included source d cs
    (i :: is, d)

def setSuccs (d : Draft) (i : Nat) (succs : List Nat) : Draft :=
  { d with labels := d.labels.modify i fun l => { l with succs } }

/-- The successors of label `i` and of all later ones, which are found on the way. The fuel bounds
the number of labels. -/
def findSuccs (included : List BlockId) : Nat → Nat → Draft → Except Fault Draft
  | 0, _, d => .ok d
  | fuel + 1, i, d =>
    match d.labels[i]? with
    | none => .ok d
    | some l =>
      match l.kind with
      | .code b => do
        let (succs, d) := d.edges included (.label i) (← p.block b).code.endCalls
        d.setSuccs i succs |>.findSuccs included fuel (i + 1)
      | .goto target => (d.setSuccs i [target]).findSuccs included fuel (i + 1)
      | .call _ => d.findSuccs included fuel (i + 1)

end Draft

def phi (kind : Kind) (labels : Array Label) (renames : Subst) (b : BlockId) (arity j : Nat)
    (param : Temp) : List Pred → Except Fault Phi
  | [] => .ok ⟨param, []⟩
  | pred :: preds =>
    match pred.args[j]? with
    | none => .error (.arityMismatch (.edge b) arity pred.args.length)
    | some a => do
      let rest ← phi kind labels renames b arity j param preds
      return ⟨param, (sourceName kind labels pred.source, renames.apply a) :: rest.incoming⟩

def phis (kind : Kind) (labels : Array Label) (renames : Subst) (b : BlockId) (preds : List Pred)
    (arity : Nat) : Nat → List Temp → Except Fault (List Phi)
  | _, [] => .ok []
  | j, param :: params =>
    if param.isWildcard then phis kind labels renames b preds arity (j + 1) params
    else do
      let first ← phi kind labels renames b arity j param preds
      return first :: (← phis kind labels renames b preds arity (j + 1) params)

/-- A label with one predecessor renames its parameters to what it gets, any other one merges. -/
def eliminateParams (kind : Kind) (labels : Array Label) :
    List Label → Subst → Except Fault (List Label × Subst)
  | [], renames => .ok ([], renames)
  | l :: ls, renames => do
    let (l, renames) ← match l.kind with
      | .code b => do
        let params := (← p.block b).params
        match l.preds with
        | [pred] => do
          pure (l, ← renames.bind params (renames.applyAll pred.args))
        | preds => do
          pure ({ l with phis := ← phis kind labels renames b preds params.length 0 params },
            renames)
      | _ => pure (l, renames)
    let (ls, renames) ← eliminateParams kind labels ls renames
    return (l :: ls, renames)

/-- Labels are found by entry edges and by the jumps at the ends of included blocks. -/
def labelBound (included : List BlockId) (entry : List Call) : Nat :=
  let jumps := included.map fun b => (p.blocks[b.index]?).elim 0 fun block =>
    block.code.endCalls.length
  entry.length + jumps.foldr (· + ·) 0

/-- The graph numbered `next`, whose start leads to the given calls, and the next free number. -/
def graph (kind : Kind) (included : List BlockId) (calls : List Call) (next : Nat) :
    Except Fault (FlowGraph × Nat) := do
  let (entry, d) := Draft.edges included .entry ⟨next + 1, #[]⟩ calls
  let d ← d.findSuccs p included (labelBound p included calls + 1) 0
  let (labels, renames) ← eliminateParams p kind d.labels d.labels.toList {}
  return (⟨next, kind, labels.toArray, entry, included, renames⟩, d.next)

def blockGraph (b : BlockId) (params : List Temp) (next : Nat) :
    Except Fault (FlowGraph × Nat) := do
  let included ← (← p.block b).code.endCalls.foldlM (includeCall p small (.block b)) [b]
  graph p (.block b params (p.isEntrypoint (.block b))) included [⟨b, params.map .temp⟩] next

def closureGraph (k : ClosureId) (next : Nat) : Except Fault (FlowGraph × Nat) := do
  let calls := (← p.closure k).tail.call?.toList
  let included ← calls.foldlM (includeCall p small (.closure k)) []
  graph p (.closure k) included calls next

/-- The calls that compute top-level values, each with its top-level. -/
def topCalls : List DefnId → Except Fault (List (TopId × Call))
  | [] => .ok []
  | .top t :: ds => do
    let own := (← p.top t).tail.call?.toList.map fun c => (t, c)
    return own ++ (← topCalls ds)
  | _ :: ds => topCalls ds

def initGraph (calls : List (TopId × Call)) (next : Nat) : Except Fault (FlowGraph × Nat) := do
  let included ← calls.foldlM (fun included (t, c) => includeCall p small (.top t) included c) []
  graph p .init included (calls.map (·.2)) next

/-- The graphs of the blocks that are functions, whose parameters have got fresh names, and of the
closures, in order. -/
def graphs (functions : List (BlockId × List Temp)) :
    List DefnId → Nat → Except Fault (List FlowGraph × Nat)
  | [], next => .ok ([], next)
  | d :: ds, next => do
    let made ← match d with
      | .block b =>
        match functions.find? fun f => f.1 == b with
        | some (_, params) => some <$> blockGraph p small b params next
        | none => pure none
      | .closure k => some <$> closureGraph p small k next
      | .top _ => pure none
    match made with
    | some (g, next) => do
      let (gs, next) ← graphs functions ds next
      return (g :: gs, next)
    | none => graphs functions ds next

def allGraphs (functions : List (BlockId × List Temp)) : Except Fault (List FlowGraph) := do
  let (gs, next) ← graphs p small functions p.defns 0
  let calls ← topCalls p p.defns
  if calls.isEmpty then return gs
  return gs ++ [(← initGraph p small calls next).1]

end FlowGraph

namespace Edit

/-- Fresh parameters for the blocks that are called as functions or are entrypoints. -/
def functionParams : List DefnId → Edit (List (BlockId × List Temp))
  | [] => return []
  | .block b :: ds => do
    let block ← read (·.block b)
    if 0 < block.notes.calls ∨ block.notes.entrypoint then
      let params ← freshLikeAll block.params
      return (b, params) :: (← functionParams ds)
    else functionParams ds
  | _ :: ds => functionParams ds

/-- The graphs of all retained definitions. -/
def flowGraphs (small : Nat) : Edit (List FlowGraph) := do
  let functions ← functionParams (← get).defns
  read fun p => FlowGraph.allGraphs p small functions

end Edit

end MonadicIR
