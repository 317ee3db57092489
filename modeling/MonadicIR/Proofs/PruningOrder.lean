import MonadicIR.Proofs.NothingUnused

namespace MonadicIR

namespace Usage

variable {pruned pruned' : Usage}

theorem Same.kept {α : Type} (h : Same pruned pruned') (d : DefnId) (items : List α) :
    pruned.kept d items = pruned'.kept d items := by
  rw [Usage.kept, Usage.kept, h d]

theorem Same.pruneCall (h : Same pruned pruned') (c : Call) :
    pruned.pruneCall c = pruned'.pruneCall c :=
  congrArg (Call.mk c.target) (h.kept _ c.args)

theorem Same.pruneTail (h : Same pruned pruned') (t : Tail) :
    pruned.pruneTail t = pruned'.pruneTail t := by
  cases t with
  | call c => exact congrArg Tail.call (h.pruneCall c)
  | closure k args => exact congrArg (Tail.closure k) (h.kept _ args)
  | ret | enter | data | sel | prim => rfl

theorem Same.pruneCode (h : Same pruned pruned') (code : Code) :
    pruned.pruneCode code = pruned'.pruneCode code := by
  rw [Usage.pruneCode, Usage.pruneCode, funext h.pruneTail, funext h.pruneCall]

theorem same_ofList_of_perm {entries entries' : List (DefnId × List Bool)}
    (hpair : entries.Pairwise fun e e' => e.1 ≠ e'.1) (h : entries.Perm entries') :
    Same (.ofList entries) (.ofList entries') := by
  have hpair' : entries'.Pairwise fun e e' => e.1 ≠ e'.1 := h.pairwise hpair Ne.symm
  intro d
  ext flags
  rw [getElem?_ofList_eq_some_iff hpair, getElem?_ofList_eq_some_iff hpair', h.mem_iff]

end Usage

theorem Program.prunedBy_congr {pruned pruned' : Usage} (h : pruned.Same pruned') (p : Program) :
    p.prunedBy pruned = p.prunedBy pruned' := by
  simp only [prunedBy, h.kept, h.pruneCode, h.pruneTail]

namespace Pass

/-- Pruning by the same entries in another order leaves the same program and makes the same reports. -/
theorem prune_ok_of_perm {entries entries' : List (DefnId × List Bool)} (h : entries'.Perm entries)
    (hpair : entries.Pairwise fun e e' => e.1 ≠ e'.1) {s : Workbench}
    (hd : ∀ e ∈ entries, s.program.defines e.1 = true) :
    prune entries' s = .ok ()
      { program := s.program.prunedBy (.ofList entries)
        current := none
        log := s.log ++ entries'.filterMap Change.ofRemoval
        count := s.count + (entries.filterMap Change.ofRemoval).length } := by
  have hpair' : entries'.Pairwise fun e e' => e.1 ≠ e'.1 := h.symm.pairwise hpair Ne.symm
  rw [prune_ok hpair' fun e he => hd e (h.mem_iff.mp he),
    s.program.prunedBy_congr (Usage.same_ofList_of_perm hpair' h), (h.filterMap _).length_eq]

/-- The removal of unused arguments, where the entries of the table are visited in the given order. -/
def unusedArgsBy (order : Usage → List (DefnId × List Bool)) : Pass Unit := do
  prune ((order (← look Program.usage)).filter fun e => !e.2.all id)

theorem unusedArgs_eq : unusedArgs = unusedArgsBy Std.TreeMap.toList := rfl

theorem unusedArgsBy_ok {s : Workbench} {usage : Usage} (husage : s.program.usage = .ok usage)
    (hd : ∀ e ∈ usage.unused, s.program.defines e.1 = true)
    {order : Usage → List (DefnId × List Bool)}
    (h : ((order usage).filter fun e => !e.2.all id).Perm usage.unused) :
    unusedArgsBy order s = .ok ()
      { program := s.program.prunedBy usage.removable
        current := none
        log := s.log ++ ((order usage).filter fun e => !e.2.all id).filterMap Change.ofRemoval
        count := s.count + (usage.unused.filterMap Change.ofRemoval).length } :=
  bind_ok_iff.mpr ⟨usage, s, look_eq_ok_iff.mpr ⟨husage, rfl⟩,
    prune_ok_of_perm h usage.unused_pairwise hd⟩

/-- In whatever order the table of usages is visited, the pass ends with the same program and the
same number of changes, and its reports are the same up to their order. -/
theorem unusedArgsBy_perm (s : Workbench) (hcurrent : s.program.Current)
    {order order' : Usage → List (DefnId × List Bool)}
    (horder : ∀ usage, (order usage).Perm usage.toList)
    (horder' : ∀ usage, (order' usage).Perm usage.toList) :
    ∃ (program : Program) (count : Nat) (changes changes' : List Change),
      unusedArgsBy order s = .ok () { program, current := none, log := s.log ++ changes, count } ∧
      unusedArgsBy order' s = .ok () { program, current := none, log := s.log ++ changes', count } ∧
      changes.Perm changes' := by
  obtain ⟨usage, husage, haccounts⟩ := Program.usage_spec hcurrent
  have hd := haccounts.defines_of_mem_unused hcurrent
  have hfirst := (horder usage).filter fun e => !e.2.all id
  have hsecond := (horder' usage).filter fun e => !e.2.all id
  exact ⟨_, _, _, _, unusedArgsBy_ok husage hd hfirst, unusedArgsBy_ok husage hd hsecond,
    (hfirst.trans hsecond.symm).filterMap _⟩

/-- Two visits of one table that report in different orders. -/
theorem unusedArgsBy_perm_leftovers : ∃ w s1 s2, Program.leftovers.shake = .ok () w ∧
    w.program.Current ∧ unusedArgs w = .ok () s1 ∧
    unusedArgsBy (fun usage => usage.toList.reverse) w = .ok () s2 ∧
    s1.log.map Change.defn = #[some (.block ⟨1⟩), some (.closure ⟨0⟩)] ∧
    s2.log.map Change.defn = #[some (.closure ⟨0⟩), some (.block ⟨1⟩)] ∧
    s1.program = s2.program ∧ s1.log.toList.Perm s2.log.toList := by
  obtain ⟨⟨⟩, w, hw, htest⟩ := exists_ok (r := Program.leftovers.shake) (fun _ w => w.log.isEmpty &&
    (match unusedArgs w with
      | .ok _ s => s.log.map Change.defn == #[some (.block ⟨1⟩), some (.closure ⟨0⟩)]
      | .error .. => false) &&
    (match unusedArgsBy (fun usage => usage.toList.reverse) w with
      | .ok _ s => s.log.map Change.defn == #[some (.closure ⟨0⟩), some (.block ⟨1⟩)]
      | .error .. => false)) (by cbv)
  simp only [Bool.and_eq_true, and_assoc, Array.isEmpty_iff] at htest
  obtain ⟨hlog, htest1, htest2⟩ := htest
  have hcurrent := (Program.upToDate_of_shake hw).1.current
  obtain ⟨program, count, changes, changes', h1, h2, hperm⟩ := unusedArgsBy_perm w hcurrent
    (fun usage => .refl usage.toList) (fun usage => usage.toList.reverse_perm)
  rw [← unusedArgs_eq] at h1
  simp only [h1, h2, beq_iff_eq] at htest1 htest2
  exact ⟨w, _, _, hw, hcurrent, h1, h2, htest1, htest2, rfl, by simpa [hlog] using hperm⟩

end Pass

end MonadicIR
