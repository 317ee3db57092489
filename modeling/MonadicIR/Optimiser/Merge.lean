import MonadicIR.Alpha
import MonadicIR.Optimiser.Pass

namespace MonadicIR

namespace Program

/-- The block that `b` was merged into. The fuel bounds the length of the way there. -/
def blockReplacementFrom (p : Program) : Nat → BlockId → BlockId
  | 0, b => b
  | fuel + 1, b =>
    match (p.blocks[b.index]?).bind Block.replacement with
    | some next => if next = b then b else p.blockReplacementFrom fuel next
    | none => b

def blockReplacement (p : Program) (b : BlockId) : BlockId :=
  p.blockReplacementFrom (p.blocks.size + 1) b

def closureReplacementFrom (p : Program) : Nat → ClosureId → ClosureId
  | 0, k => k
  | fuel + 1, k =>
    match (p.closures[k.index]?).bind Closure.replacement with
    | some next => if next = k then k else p.closureReplacementFrom fuel next
    | none => k

def closureReplacement (p : Program) (k : ClosureId) : ClosureId :=
  p.closureReplacementFrom (p.closures.size + 1) k

def retainedBlocks (p : Program) : List BlockId :=
  p.defns.filterMap fun
    | .block b => some b
    | _ => none

def retainedClosures (p : Program) : List ClosureId :=
  p.defns.filterMap fun
    | .closure k => some k
    | _ => none

def retainedTops (p : Program) : List TopId :=
  p.defns.filterMap fun
    | .top t => some t
    | _ => none

/-- Replaces the targets of calls and allocations. -/
def redirectTail (p : Program) : Tail → Tail
  | .call c => .call ⟨p.blockReplacement c.target, c.args⟩
  | .closure k args => .closure (p.closureReplacement k) args
  | t => t

def redirectCall (p : Program) (c : Call) : Call := ⟨p.blockReplacement c.target, c.args⟩

/-- The target of a call in a tail is looked up twice, once with the tail and once with the calls. -/
def redirectCode (p : Program) (code : Code) : Code :=
  (code.mapTails p.redirectTail).mapCalls p.redirectCall

/-- A block or closure that is not there, but that some definition, retained or not, refers to. -/
def dangling? (p : Program) : Option DefnId :=
  (p.allDefns.flatMap fun d => (p.callees d).toOption.getD []).find? fun
    | .top _ => false
    | d => !p.defines d

/-- Points every reference, in all definitions, to what its target was merged into. -/
def redirect (p : Program) : Program :=
  { p with
    blocks := p.blocks.map fun x => { x with code := p.redirectCode x.code }
    closures := p.closures.map fun x => { x with tail := p.redirectTail x.tail }
    tops := p.tops.map fun x => { x with tail := p.redirectTail x.tail } }

end Program

/-- The definitions that stand for their groups so far, each with its summary, in order. -/
abbrev Groups (α : Type) := List (Word × α)

namespace Groups

/-- The first member with the same summary that `same` accepts. -/
def find {α : Type} (groups : Groups α) (summary : Word) (same : α → Bool) : Option α :=
  (groups.find? fun g => g.1 == summary && same g.2).map (·.2)

end Groups

namespace Pass

/-- Goes through the blocks. Was one merged? -/
def mergeBlocks : List BlockId → Groups BlockId → Pass Bool
  | [], _ => return false
  | b :: bs, groups => do
    let block ← look (·.block b)
    let p := (← get).program
    let same := groups.find block.summary fun other =>
      (p.blocks[other.index]?).any (·.alphaEquiv block)
    match if p.isEntrypoint (.block b) then none else same with
    | some other =>
      edit (Edit.modifyBlock b fun x => { x with replacement := some other })
      workOn (some (.block b))
      report s!"{b.text} is a copy of {other.text}"
      let _ ← mergeBlocks bs groups
      return true
    | none =>
      edit (Edit.modifyBlock b fun x => { x with replacement := none })
      mergeBlocks bs (groups ++ [(block.summary, b)])

def mergeClosures : List ClosureId → Groups ClosureId → Pass Bool
  | [], _ => return false
  | k :: ks, groups => do
    let closure ← look (·.closure k)
    let p := (← get).program
    let same := groups.find closure.summary fun other =>
      (p.closures[other.index]?).any (·.alphaEquiv closure)
    match if p.isEntrypoint (.closure k) then none else same with
    | some other =>
      edit (Edit.modifyClosure k fun x => { x with replacement := some other })
      workOn (some (.closure k))
      report s!"{k.text} is a copy of {other.text}"
      let _ ← mergeClosures ks groups
      return true
    | none =>
      edit (Edit.modifyClosure k fun x => { x with replacement := none })
      mergeClosures ks (groups ++ [(closure.summary, k)])

/-- A top-level that computes what an earlier one does returns the values of that one. -/
def mergeTops : List TopId → Groups TopId → Pass Unit
  | [], _ => return ()
  | t :: ts, groups => do
    let top ← look (·.top t)
    if !top.tail.isPure || isReturn top.tail then mergeTops ts groups
    else
      let p := (← get).program
      let same := groups.find top.summary fun other =>
        (p.tops[other.index]?).any (·.alphaEquiv top)
      match if p.isEntrypoint (.top t) then none else same with
      | some other =>
        let values := (List.range top.lhs.length).map fun i => Atom.top ⟨other, i⟩
        edit (Edit.modifyTop t fun x => { x with tail := .ret values })
        workOn (some (.top t))
        report s!"{t.text} is a copy of {other.text}"
        mergeTops ts groups
      | none => mergeTops ts (groups ++ [(top.summary, t)])
where
  isReturn : Tail → Bool
    | .ret _ => true
    | _ => false

def collapseBlocks : Pass Bool := do
  let merged ← mergeBlocks (← get).program.retainedBlocks []
  workOn none
  return merged

def collapseClosures : Pass Bool := do
  let merged ← mergeClosures (← get).program.retainedClosures []
  workOn none
  return merged

def collapseTops : Pass Unit := do
  mergeTops (← get).program.retainedTops []
  workOn none

def redirect : Pass Unit := do
  match (← get).program.dangling? with
  | some d => throw (.dangling d)
  | none => modify fun s => { s with program := s.program.redirect }

/-- Merges equivalent blocks, closures and top-levels. -/
def collapse : Pass Unit := do
  let blocks ← collapseBlocks
  let closures ← collapseClosures
  if blocks || closures then redirect
  collapseTops

end Pass

end MonadicIR
