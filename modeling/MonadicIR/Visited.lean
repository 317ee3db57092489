import Std.Data.TreeSet

namespace MonadicIR

/-- The items that a search has visited, the latest first. -/
structure Visited (α : Type) [Ord α] where
  items : List α := []
  index : Std.TreeSet α := {}
  mem_index_iff : ∀ a, a ∈ index ↔ a ∈ items := by simp

namespace Visited

variable {α : Type} [Ord α]

def contains (v : Visited α) (a : α) : Bool := v.index.contains a

variable [Std.TransOrd α] [Std.LawfulEqOrd α]

def insert (v : Visited α) (a : α) : Visited α where
  items := a :: v.items
  index := v.index.insert a
  mem_index_iff b := by
    rw [Std.TreeSet.mem_insert, v.mem_index_iff, List.mem_cons, Std.compare_eq_iff_eq, eq_comm]

/-- Adds `a` and all it leads to, unless it is there already. The fuel bounds the length of a path
through new items. -/
def explore (next : α → List α) : Nat → Visited α → α → Visited α
  | 0, v, _ => v
  | fuel + 1, v, a =>
    if v.contains a then v else (next a).foldl (explore next fuel) (v.insert a)

/-- The items that were added to `earlier`. -/
def since (v earlier : Visited α) : List α := v.items.takeWhile fun a => !earlier.contains a

end Visited

end MonadicIR
