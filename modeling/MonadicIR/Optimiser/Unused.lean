import MonadicIR.Optimiser.Pass

namespace MonadicIR

/-- For each block its parameters, for each closure its stored fields: is it used? -/
abbrev Usage := Std.TreeMap DefnId (List Bool)

/-- The items that are marked. -/
def keep {α : Type} : List α → List Bool → List α
  | a :: as, u :: us => if u then a :: keep as us else keep as us
  | _, _ => []

namespace Usage

/-- The arguments that reach a used parameter. Nothing is known of callees without an entry. -/
def usedArgs (usage : Usage) (d : DefnId) (args : List Atom) : List Atom :=
  match usage[d]? with
  | some flags => keep args (flags ++ List.replicate (args.length - flags.length) true)
  | none => args

def callUses (usage : Usage) (c : Call) : List Temp :=
  (usage.usedArgs (.block c.target) c.args).filterMap Atom.temp?

def tailUses (usage : Usage) : Tail → List Temp
  | .call c => usage.callUses c
  | .closure k args => (usage.usedArgs (.closure k) args).filterMap Atom.temp?
  | t => t.temps

/-- The variables whose values the code needs. -/
def codeUses (usage : Usage) : Code → List Temp
  | .done t => usage.tailUses t
  | .bind vars tail rest =>
    (usage.codeUses rest).filter (!vars.contains ·) ++ usage.tailUses tail
  | .assert a _ rest => usage.codeUses rest ++ a.temp?.toList
  | .branch test yes no => test.temp?.toList ++ usage.callUses yes ++ usage.callUses no
  | .switch a alts => a.temp?.toList ++ alts.calls.flatMap usage.callUses

/-- A variable that is listed twice is marked once. -/
def mark (used : List Temp) : List Temp → List Temp → List Bool
  | _, [] => []
  | earlier, x :: xs => (used.contains x && !earlier.contains x) :: mark used (x :: earlier) xs

def merge : List Bool → List Bool → List Bool
  | u :: us, v :: vs => (u || v) :: merge us vs
  | us, _ => us

/-- Marks more in the entry of `d`, if it has one. -/
def grow (usage : Usage) (d : DefnId) (found : List Bool) : Usage :=
  match usage[d]? with
  | some flags => usage.insert d (merge flags found)
  | none => usage

/-- How much there is to mark for these definitions. -/
def width (usage : Usage) (ds : List DefnId) : Nat :=
  (ds.map fun d => (usage.getD d []).length).foldr (· + ·) 0

end Usage

namespace Program

/-- Adds the entry of a definition before anything is known: an entrypoint uses all it takes. -/
def startUsage (p : Program) (usage : Usage) (d : DefnId) : Except Fault Usage :=
  match d with
  | .block b => do
    let block ← p.block b
    return usage.insert d (List.replicate block.params.length (p.isEntrypoint d))
  | .closure k => do
    let closure ← p.closure k
    return usage.insert d (List.replicate closure.stored.length (p.isEntrypoint d))
  | .top _ => .ok usage

/-- What the body uses, given what is known of its callees. -/
def foundUsage (p : Program) (usage : Usage) : DefnId → Except Fault (List Bool)
  | .block b => (p.block b).map fun block => Usage.mark (usage.codeUses block.code) [] block.params
  | .closure k =>
    (p.closure k).map fun closure => Usage.mark (usage.tailUses closure.tail) [] closure.stored
  | .top _ => .ok []

def growUsage (p : Program) (usage : Usage) (d : DefnId) : Except Fault Usage :=
  (p.foundUsage usage d).map (usage.grow d)

/-- Each round but the last marks something, so there are not more rounds than marks and one. -/
def settleUsage (p : Program) (members : List DefnId) : Nat → Usage → Except Fault Usage
  | 0, usage => .ok usage
  | fuel + 1, usage => do
    let grown ← members.foldlM p.growUsage usage
    if members.all fun d => grown[d]? == usage[d]? then return usage
    p.settleUsage members fuel grown

def usageOf (p : Program) : List Component → Usage → Except Fault Usage
  | [], usage => .ok usage
  | c :: cs, usage => do
    let start ← c.members.foldlM p.startUsage usage
    p.usageOf cs (← p.settleUsage c.members (start.width c.members + 1) start)

def usage (p : Program) : Except Fault Usage := p.usageOf p.components.toList {}

end Program

namespace Usage

/-- The definitions that have something to remove, blocks before closures. -/
def unused (usage : Usage) : List (DefnId × List Bool) :=
  usage.toList.filter fun e => !e.2.all id

def pruneArgs (pruned : Usage) (d : DefnId) (args : List Atom) : List Atom :=
  match pruned[d]? with
  | some flags => keep args flags
  | none => args

def pruneCall (pruned : Usage) (c : Call) : Call :=
  ⟨c.target, pruned.pruneArgs (.block c.target) c.args⟩

def pruneTail (pruned : Usage) : Tail → Tail
  | .call c => .call (pruned.pruneCall c)
  | .closure k args => .closure k (pruned.pruneArgs (.closure k) args)
  | t => t

def pruneCode (pruned : Usage) (code : Code) : Code :=
  (code.mapTails pruned.pruneTail).mapBranches pruned.pruneCall

end Usage

namespace Program

/-- Passes only what is still taken, in all definitions, retained or not. -/
def pruneCalls (p : Program) (pruned : Usage) : Program :=
  { p with
    blocks := p.blocks.map fun x => { x with code := pruned.pruneCode x.code }
    closures := p.closures.map fun x => { x with tail := pruned.pruneTail x.tail }
    tops := p.tops.map fun x => { x with tail := pruned.pruneTail x.tail } }

end Program

namespace Pass

def removeUnused (d : DefnId) (flags : List Bool) : Pass Unit := do
  workOn (some d)
  match d with
  | .block b => edit (Edit.modifyBlock b fun x => { x with params := keep x.params flags })
  | .closure k => edit (Edit.modifyClosure k fun x => { x with stored := keep x.stored flags })
  | .top _ => return ()
  let removed := flags.length - flags.count true
  report s!"removed {removed} unused argument(s) of {d.text}"

/-- Removes what the entries do not mark, in the order of the entries. -/
def prune (entries : List (DefnId × List Bool)) : Pass Unit := do
  forEach (fun e => removeUnused e.1 e.2) entries
  workOn none
  modify fun s => { s with program := s.program.pruneCalls (.ofList entries) }

def unusedArgs : Pass Unit := do
  prune (← look Program.usage).unused

end Pass

end MonadicIR
