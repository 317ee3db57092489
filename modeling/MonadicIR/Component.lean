import MonadicIR.Program
import MonadicIR.Visited
import Std.Data.TreeMap

namespace MonadicIR

namespace DefnId

/-- Blocks, closures and top-levels, in this order. -/
def kind : DefnId → Nat
  | block _ => 0
  | closure _ => 1
  | top _ => 2

def index : DefnId → Nat
  | block b => b.index
  | closure k => k.index
  | top t => t.index

instance : Ord DefnId := ⟨compareLex (compareOn kind) (compareOn index)⟩

instance : Std.TransOrd DefnId :=
  inferInstanceAs (Std.TransCmp (compareLex (compareOn kind) (compareOn index)))

theorem eq_of_kind_index {d e : DefnId} (hk : d.kind = e.kind) (hi : d.index = e.index) :
    d = e := by
  rcases d with ⟨⟨_⟩⟩ | ⟨⟨_⟩⟩ | ⟨⟨_⟩⟩ <;> rcases e with ⟨⟨_⟩⟩ | ⟨⟨_⟩⟩ | ⟨⟨_⟩⟩ <;>
    simp_all [kind, index]

instance : Std.LawfulEqOrd DefnId where
  eq_of_compare {d e} h := by
    obtain ⟨hk, hi⟩ := compareLex_eq_eq.mp h
    exact eq_of_kind_index (Std.LawfulEqOrd.eq_of_compare hk) (Std.LawfulEqOrd.eq_of_compare hi)

end DefnId

namespace Component

/-- What the first search knows. -/
structure Search where
  visited : Std.TreeSet DefnId := {}
  /-- The finished definitions with what they refer to, the last one first. -/
  finished : List (DefnId × List DefnId) := []

def visit (p : Program) : Nat → Search → DefnId → Except Fault Search
  | 0, s, _ => .ok s
  | fuel + 1, s, d =>
    if s.visited.contains d then .ok s
    else do
      let callees ← p.callees d
      let s ← callees.foldlM (visit p fuel) { s with visited := s.visited.insert d }
      return { s with finished := (d, callees) :: s.finished }

/-- The definitions that stand beside each definition in a relation. -/
abbrev Neighbours := Std.TreeMap DefnId (List DefnId)

namespace Neighbours

def of (ns : Neighbours) (d : DefnId) : List DefnId := ns.getD d []

/-- Adds `e` to the neighbours of `d`. -/
def add (ns : Neighbours) (d e : DefnId) : Neighbours := ns.insert d (e :: ns.of d)

end Neighbours

/-- The references between the definitions that a search found, in both directions. -/
structure Graph where
  callees : Neighbours
  callers : Neighbours

namespace Graph

def ofFinished (nodes : List (DefnId × List DefnId)) : Graph where
  callees := nodes.foldl (fun ns (d, callees) => ns.insert d callees) {}
  callers := nodes.foldr (fun (d, callees) ns => callees.foldl (fun ns e => ns.add e d) ns) {}

/-- The groups of definitions that reach each other, callers first. -/
def groups (g : Graph) (fuel : Nat) : List (DefnId × List DefnId) → Visited DefnId →
    List (List DefnId)
  | [], _ => []
  | (d, _) :: nodes, seen =>
    if seen.contains d then g.groups fuel nodes seen
    else
      let seen' := seen.explore g.callers.of fuel d
      DefnId.sort (seen'.since seen) :: g.groups fuel nodes seen'

end Graph

/-- The number of the group that each definition belongs to. -/
abbrev Positions := Std.TreeMap DefnId Nat

def positions (groups : List (List DefnId)) : Positions :=
  groups.zipIdx.foldl (fun ps (members, i) => members.foldl (fun ps d => ps.insertIfNew d i) ps) {}

/-- The component of a group, given all groups. -/
def Graph.component (g : Graph) (ps : Positions) (own : Nat) (members : List DefnId) :
    Component where
  members := members
  recursive := 1 < members.length || members.any fun d => (g.callees.of d).contains d
  uses := distinct (((members.flatMap g.callees.of).filterMap (ps[·]?)).filter fun i => i != own)

/-- The components of all definitions that the roots lead to, callees first. -/
def ofRoots (p : Program) (roots : List DefnId) : Except Fault (List Component) := do
  let s ← roots.foldlM (visit p (p.allDefns.length + 1)) {}
  let graph := Graph.ofFinished s.finished
  let groups := (graph.groups (s.finished.length + 1) s.finished {}).reverse
  return groups.mapIdx (graph.component (positions groups))

/-- The names of top-level values that depend on themselves, unless all of them are allocated. -/
def illegalNames? (p : Program) (c : Component) : Option (List String) :=
  let tops := c.members.filterMap fun
    | .top t => p.tops[t.index]?
    | _ => none
  if c.recursive && tops.any (fun t => !t.tail.isAllocator) then some (tops.flatMap TopLevel.names)
  else none

end Component

namespace Program

def roots (p : Program) : List DefnId := p.entrypoints.filter p.defines

def setComponents (p : Program) (cs : List Component) : Program :=
  let ps := Component.positions (cs.map Component.members)
  { p.mapNotes fun d notes => { notes with component := ps[d]? } with components := cs.toArray }

/-- What is wrong with the entrypoints and with the recursion among top-levels. -/
def complaints (p : Program) (cs : List Component) : List Complaint :=
  (p.entrypoints.filter fun d => !p.defines d).map .unknownEntrypoint ++
    (if p.roots.isEmpty then [.noEntrypoints] else []) ++
    (cs.filterMap (Component.illegalNames? p)).map .illegalRecursion

/-- Does no component that `d` leads to have recursion? Never known outside the components. -/
def reachesNoRecursion (p : Program) (d : DefnId) : Except Fault Bool :=
  (p.notes d).map fun notes =>
    match notes.component with
    | none => false
    | some i =>
      let uses := fun j => (p.components[j]?).elim [] Component.uses
      (({} : Visited Nat).explore uses (p.components.size + 1) i).items.all fun j =>
        (p.components[j]?).any fun c => !c.recursive

end Program

namespace Edit

/-- Retains what the entrypoints lead to, and reports what is wrong with it. -/
def computeComponents : Edit (List Complaint) := do
  let p ← get
  let cs ← read fun p => Component.ofRoots p p.roots
  modify fun p => p.setComponents cs
  return p.complaints cs

end Edit

end MonadicIR
