import Mathlib
import MonadicIR.Component

namespace MonadicIR

theorem bind_eq_ok_iff {ε α β : Type} {x : Except ε α} {f : α → Except ε β} {b : β} :
    (x >>= f) = .ok b ↔ ∃ a, x = .ok a ∧ f a = .ok b := by
  cases x <;> simp [bind, Except.bind]

theorem exists_unit {P : Unit → Prop} : (∃ u, P u) ↔ P () := ⟨fun ⟨_, h⟩ => h, fun h => ⟨(), h⟩⟩

theorem map_eq_ok_iff {ε α β : Type} {x : Except ε α} {f : α → β} {b : β} :
    x.map f = .ok b ↔ ∃ a, x = .ok a ∧ f a = b := by
  cases x <;> simp [Except.map]

theorem bind_ok_iff {ε σ α β : Type} {x : EStateM ε σ α} {f : α → EStateM ε σ β} {s s' : σ}
    {b : β} : (x >>= f) s = .ok b s' ↔ ∃ a s1, x s = .ok a s1 ∧ f a s1 = .ok b s' := by
  simp only [bind, EStateM.bind]
  cases x s with
  | ok a s1 =>
    refine ⟨fun h => ⟨a, s1, rfl, h⟩, ?_⟩
    rintro ⟨_, _, ⟨⟩, h⟩
    exact h
  | error => simp

variable {α : Type}

theorem setIfInBounds_eq_modify {xs : Array α} {i : Nat} {x : α} (h : xs[i]? = some x) (f : α → α) :
    xs.setIfInBounds i (f x) = xs.modify i f := by
  obtain ⟨hlt, rfl⟩ := Array.getElem?_eq_some_iff.mp h
  refine Array.ext (by simp) fun j _ _ => ?_
  rw [Array.getElem_setIfInBounds, Array.getElem_modify]
  split
  · rename_i hij
    subst hij
    rfl
  · rfl

theorem getElem?_setIfInBounds_of_some {xs : Array α} {i : Nat} {x : α} (h : xs[i]? = some x)
    (y : α) (j : Nat) :
    (xs.setIfInBounds i y)[j]? = if j = i then some y else xs[j]? := by
  have hlt := (Array.getElem?_eq_some_iff.mp h).1
  rw [Array.getElem?_setIfInBounds]
  grind

theorem mem_distinct [DecidableEq α] {items : List α} {a : α} :
    a ∈ distinct items ↔ a ∈ items := by
  have hfold (seen : List α) : a ∈ items.foldl
      (fun seen a => if seen.contains a then seen else seen ++ [a]) seen ↔ a ∈ seen ∨
        a ∈ items := by
    induction items generalizing seen with
    | nil => simp
    | cons b items ih =>
      rw [List.foldl_cons, ih]
      split <;> simp_all [or_assoc]
      grind
  simpa [distinct] using hfold []

theorem nodup_distinct [DecidableEq α] (items : List α) : (distinct items).Nodup := by
  have hfold (seen : List α) (h : seen.Nodup) :
      (items.foldl (fun seen a => if seen.contains a then seen else seen ++ [a]) seen).Nodup := by
    induction items generalizing seen with
    | nil => exact h
    | cons a items ih =>
      refine ih _ ?_
      dsimp only
      split
      · exact h
      · rename_i ha
        rw [List.contains_iff_mem] at ha
        refine List.nodup_append.mpr ⟨h, by simp, ?_⟩
        rintro x hx _ (_ | ⟨_, ⟨⟩⟩) rfl
        exact ha hx
  exact hfold [] List.nodup_nil

namespace Alts

theorem mem_calls_of_select {alts : Alts} {c : Ctor} {taken : Call}
    (h : alts.select c = some taken) : taken ∈ alts.calls := by
  unfold select at h
  split at h
  · rename_i arm harm
    obtain rfl := Option.some.inj h
    exact List.mem_append_left _ (List.mem_map_of_mem (List.mem_of_find?_eq_some harm))
  · simp [calls, h]

theorem select_mapCalls (f : Call → Call) (alts : Alts) (c : Ctor) :
    (alts.mapCalls f).select c = (alts.select c).map f := by
  simp only [select, mapCalls, List.find?_map]
  have hcomp : ((fun arm : Arm => arm.ctor.same c) ∘ fun arm : Arm => ⟨arm.ctor, f arm.call⟩) =
      fun arm => arm.ctor.same c := rfl
  rw [hcomp]
  cases alts.arms.find? fun arm => arm.ctor.same c <;> rfl

theorem calls_mapCalls (f : Call → Call) (alts : Alts) :
    (alts.mapCalls f).calls = alts.calls.map f := by
  cases h : alts.default <;> simp [calls, mapCalls, h]

@[simp] theorem ctors_mapCalls (f : Call → Call) (alts : Alts) :
    (alts.mapCalls f).arms.map Arm.ctor = alts.arms.map Arm.ctor := by
  simp [mapCalls, Function.comp_def]

end Alts

namespace Program

variable {p : Program} {k : ClosureId} {b : BlockId}

theorem top_eq_ok_iff {t : TopId} {top : TopLevel} :
    p.top t = .ok top ↔ p.tops[t.index]? = some top := by
  unfold Program.top
  split <;> simp_all

theorem block_eq_ok_iff {block : Block} :
    p.block b = .ok block ↔ p.blocks[b.index]? = some block := by
  unfold Program.block
  split <;> simp_all

theorem closure_eq_ok_iff {closure : Closure} :
    p.closure k = .ok closure ↔ p.closures[k.index]? = some closure := by
  unfold Program.closure
  split <;> simp_all

theorem getElem?_setBlock {block : Block} (hb : p.blocks[b.index]? = some block) (block' : Block)
    (x : BlockId) :
    (p.setBlock b block').blocks[x.index]? = if x = b then some block' else p.blocks[x.index]? := by
  rw [setBlock, getElem?_setIfInBounds_of_some hb]
  cases x
  cases b
  simp

theorem getElem?_setClosure {closure : Closure} (hk : p.closures[k.index]? = some closure)
    (closure' : Closure) (x : ClosureId) :
    (p.setClosure k closure').closures[x.index]? =
      if x = k then some closure' else p.closures[x.index]? := by
  rw [setClosure, getElem?_setIfInBounds_of_some hk]
  cases x
  cases k
  simp

theorem getElem?_setTop {t : TopId} {top : TopLevel} (ht : p.tops[t.index]? = some top)
    (top' : TopLevel) (x : TopId) :
    (p.setTop t top').tops[x.index]? = if x = t then some top' else p.tops[x.index]? := by
  rw [setTop, getElem?_setIfInBounds_of_some ht]
  cases x
  cases t
  simp

theorem mem_allDefns {d : DefnId} : d ∈ p.allDefns ↔ p.defines d = true := by
  rcases d with ⟨⟨i⟩⟩ | ⟨⟨i⟩⟩ | ⟨⟨i⟩⟩ <;> simp [allDefns, blockIds, closureIds, topIds, defines]

theorem defines_block_iff :
    p.defines (.block b) = true ↔ ∃ block, p.blocks[b.index]? = some block := by
  simp [defines, ← Option.isSome_iff_exists]

theorem defines_closure_iff :
    p.defines (.closure k) = true ↔ ∃ closure, p.closures[k.index]? = some closure := by
  simp [defines, ← Option.isSome_iff_exists]

theorem defines_top_iff {t : TopId} :
    p.defines (.top t) = true ↔ ∃ top, p.tops[t.index]? = some top := by
  simp [defines, ← Option.isSome_iff_exists]

theorem exists_notes_iff {d : DefnId} : (∃ notes, p.notes d = .ok notes) ↔ p.defines d = true := by
  cases d <;>
    simp [notes, map_eq_ok_iff, block_eq_ok_iff, closure_eq_ok_iff, top_eq_ok_iff,
      defines_block_iff, defines_closure_iff, defines_top_iff]

theorem defines_of_callees {d : DefnId} {cs : List DefnId} (h : p.callees d = .ok cs) :
    p.defines d = true := by
  cases d <;>
    simp only [callees, map_eq_ok_iff, block_eq_ok_iff, closure_eq_ok_iff, top_eq_ok_iff,
      Array.getElem?_eq_some_iff] at h <;>
    obtain ⟨_, ⟨h, -⟩, -⟩ := h <;> simpa [defines] using h

end Program

end MonadicIR
