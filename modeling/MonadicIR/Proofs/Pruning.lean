import MonadicIR.Proofs.Checked
import MonadicIR.Proofs.Passes
import MonadicIR.Proofs.Usage

namespace MonadicIR

open Program

namespace Usage

/-- What is still taken in the slots of a definition. -/
def kept {α : Type} (pruned : Usage) (d : DefnId) (items : List α) : List α :=
  match pruned[d]? with
  | some flags => keep items flags
  | none => items

variable {flags : List Bool} {d : DefnId} {α : Type}

theorem keep_sublist (items : List α) (flags : List Bool) :
    (keep items flags).Sublist items := by
  fun_induction keep items flags with
  | case1 a as us ih => exact ih.cons_cons a
  | case2 a as u us _ ih => exact ih.cons a
  | case3 => exact List.nil_sublist _

theorem length_keep_congr {α β : Type} {as : List α} {bs : List β} (h : as.length = bs.length)
    (flags : List Bool) : (keep as flags).length = (keep bs flags).length := by
  induction flags generalizing as bs with
  | nil => cases as <;> cases bs <;> rfl
  | cons u us ih =>
    cases as with
    | nil =>
      obtain rfl := List.length_eq_zero_iff.mp h.symm
      rfl
    | cons a as =>
      cases bs with
      | nil => cases h
      | cons b bs =>
        have := ih (Nat.succ.inj h)
        cases u <;> simp [keep, this]

theorem kept_sublist (pruned : Usage) (d : DefnId) (items : List α) :
    (pruned.kept d items).Sublist items := by
  unfold kept
  split
  · exact keep_sublist ..
  · exact List.Sublist.refl _

theorem length_kept_congr {α β : Type} (pruned : Usage) (d : DefnId) {as : List α} {bs : List β}
    (h : as.length = bs.length) : (pruned.kept d as).length = (pruned.kept d bs).length := by
  unfold kept
  split
  · exact length_keep_congr h _
  · exact h

theorem getElem?_ofList_eq_some_iff {entries : List (DefnId × List Bool)}
    (h : entries.Pairwise fun e e' => e.1 ≠ e'.1) :
    (Std.TreeMap.ofList entries : Usage)[d]? = some flags ↔ (d, flags) ∈ entries := by
  have hpair : entries.Pairwise fun e e' => ¬ compare e.1 e'.1 = .eq :=
    h.imp fun hne => mt Std.compare_eq_iff_eq.mp hne
  constructor
  · intro hd
    by_cases hmem : ∃ fl, (d, fl) ∈ entries
    · obtain ⟨fl, hfl⟩ := hmem
      rw [Std.TreeMap.getElem?_ofList_of_mem Std.ReflCmp.compare_self hpair hfl] at hd
      rwa [← Option.some.inj hd]
    · rw [Std.TreeMap.getElem?_ofList_of_contains_eq_false (by simpa using hmem)] at hd
      cases hd
  · exact Std.TreeMap.getElem?_ofList_of_mem Std.ReflCmp.compare_self hpair

theorem kept_of_none {pruned : Usage} (h : pruned[d]? = none) (items : List α) :
    pruned.kept d items = items := by
  simp [kept, h]

theorem kept_of_some {pruned : Usage} (h : pruned[d]? = some flags) (items : List α) :
    pruned.kept d items = keep items flags := by
  simp [kept, h]

theorem kept_ofList_cons {entries : List (DefnId × List Bool)}
    (h : ((d, flags) :: entries).Pairwise fun e e' => e.1 ≠ e'.1) (e : DefnId) (items : List α) :
    kept (.ofList ((d, flags) :: entries)) e items =
      kept (.ofList entries) e (if d = e then keep items flags else items) := by
  have hcons (fl : List Bool) : _ ↔ (e, fl) ∈ (d, flags) :: entries := getElem?_ofList_eq_some_iff h
  have htail (fl : List Bool) : _ ↔ (e, fl) ∈ entries := getElem?_ofList_eq_some_iff h.of_cons
  by_cases hde : d = e
  · subst hde
    have hnone : (Std.TreeMap.ofList entries : Usage)[d]? = none :=
      Option.eq_none_iff_forall_ne_some.mpr fun fl hfl =>
        (List.pairwise_cons.mp h).1 _ ((htail fl).mp hfl) rfl
    rw [kept_of_some ((hcons flags).mpr (.head ..)), kept_of_none hnone, if_pos rfl]
  · have hsame : (Std.TreeMap.ofList ((d, flags) :: entries) : Usage)[e]? =
        (Std.TreeMap.ofList entries : Usage)[e]? := by
      ext fl
      rw [hcons, htail]
      simp [Ne.symm hde]
    rw [kept, hsame, if_neg hde, kept]

theorem unused_pairwise (usage : Usage) : usage.unused.Pairwise fun e e' => e.1 ≠ e'.1 := by
  refine List.Pairwise.filter _ (Std.TreeMap.distinct_keys_toList.imp fun h heq => h ?_)
  rw [heq]
  exact Std.ReflCmp.compare_self

def removable (usage : Usage) : Usage := .ofList usage.unused

theorem getElem?_removable {usage : Usage} :
    usage.removable[d]? = some flags ↔ usage[d]? = some flags ∧ flags.all id = false := by
  rw [removable, getElem?_ofList_eq_some_iff usage.unused_pairwise]
  simp [unused, Std.TreeMap.mem_toList_iff_getElem?_eq_some]

end Usage

namespace Program

/-- The program without the slots that are not marked. -/
def prunedBy (p : Program) (pruned : Usage) : Program :=
  { p with
    blocks := p.blocks.mapIdx fun i x =>
      { x with params := pruned.kept (.block ⟨i⟩) x.params, code := pruned.pruneCode x.code }
    closures := p.closures.mapIdx fun i x =>
      { x with stored := pruned.kept (.closure ⟨i⟩) x.stored, tail := pruned.pruneTail x.tail }
    tops := p.tops.map fun x => { x with tail := pruned.pruneTail x.tail } }

/-- Removes the slots of one definition that are not marked. -/
def removeSlots (p : Program) (d : DefnId) (flags : List Bool) : Program :=
  match d with
  | .block b =>
    { p with blocks := p.blocks.modify b.index fun x => { x with params := keep x.params flags } }
  | .closure k =>
    { p with
      closures := p.closures.modify k.index fun x => { x with stored := keep x.stored flags } }
  | .top _ => p

/-- Removes what each of the entries does not mark. -/
def removeAll (p : Program) (entries : List (DefnId × List Bool)) : Program :=
  entries.foldl (fun p e => p.removeSlots e.1 e.2) p

variable {p : Program}

theorem defines_removeSlots (d e : DefnId) (flags : List Bool) :
    (p.removeSlots d flags).defines e = p.defines e := by
  cases d with
  | block b => cases e <;> simp [removeSlots, defines] <;> rfl
  | closure k => cases e <;> simp [removeSlots, defines] <;> rfl
  | top => rfl

section Removed

variable {entries : List (DefnId × List Bool)}

theorem removeAll_cons (p : Program) (e : DefnId × List Bool)
    (entries : List (DefnId × List Bool)) :
    p.removeAll (e :: entries) = (p.removeSlots e.1 e.2).removeAll entries := rfl

theorem removeAll_eq (h : entries.Pairwise fun e e' => e.1 ≠ e'.1) :
    p.removeAll entries = { p with
      blocks := p.blocks.mapIdx fun i x =>
        { x with params := Usage.kept (.ofList entries) (.block ⟨i⟩) x.params }
      closures := p.closures.mapIdx fun i x =>
        { x with stored := Usage.kept (.ofList entries) (.closure ⟨i⟩) x.stored } } := by
  induction entries generalizing p with
  | nil =>
    have hblocks : (p.blocks.mapIdx fun _ x => x) = p.blocks := Array.ext (by simp) (by simp)
    have hclosures : (p.closures.mapIdx fun _ x => x) = p.closures := Array.ext (by simp) (by simp)
    simp [removeAll, Usage.kept, hblocks, hclosures]
  | cons e entries ih =>
    obtain ⟨d, flags⟩ := e
    rw [removeAll_cons, ih h.of_cons]
    simp only [Usage.kept_ofList_cons h]
    cases d with
    | block b =>
      simp only [removeSlots, reduceCtorEq, if_false, mk.injEq, true_and, and_true]
      refine Array.ext (by simp) fun i hi hi' => ?_
      simp only [Array.getElem_mapIdx, Array.getElem_modify]
      by_cases hbi : b.index = i
      · simp [← hbi]
      · have hne : b ≠ ⟨i⟩ := fun h => hbi (h ▸ rfl)
        simp [hbi, hne]
    | closure k =>
      simp only [removeSlots, reduceCtorEq, if_false, mk.injEq, true_and, and_true]
      refine Array.ext (by simp) fun i hi hi' => ?_
      simp only [Array.getElem_mapIdx, Array.getElem_modify]
      by_cases hki : k.index = i
      · simp [← hki]
      · have hne : k ≠ ⟨i⟩ := fun h => hki (h ▸ rfl)
        simp [hki, hne]
    | top => simp [removeSlots]

end Removed

section Lookup

variable {pruned : Usage} {d : DefnId}

theorem blocks_prunedBy (p : Program) (pruned : Usage) (b : BlockId) :
    (p.prunedBy pruned).blocks[b.index]? = (p.blocks[b.index]?).map fun x =>
      { x with params := pruned.kept (.block b) x.params, code := pruned.pruneCode x.code } := by
  simp [prunedBy]

theorem closures_prunedBy (p : Program) (pruned : Usage) (k : ClosureId) :
    (p.prunedBy pruned).closures[k.index]? = (p.closures[k.index]?).map fun x =>
      { x with stored := pruned.kept (.closure k) x.stored, tail := pruned.pruneTail x.tail } := by
  simp [prunedBy]

theorem tops_prunedBy (p : Program) (pruned : Usage) (t : TopId) :
    (p.prunedBy pruned).tops[t.index]? = (p.tops[t.index]?).map fun x =>
      { x with tail := pruned.pruneTail x.tail } := by
  simp [prunedBy]

theorem checkAtom_prunedBy (d : DefnId) (a : Atom) :
    (p.prunedBy pruned).checkAtom d a = p.checkAtom d a := by
  cases a with
  | top r =>
    simp only [checkAtom, Program.top, tops_prunedBy]
    cases p.tops[r.top.index]? <;> rfl
  | temp | word | flag | external => rfl

theorem checkShape_prunedBy {t : Tail} (h : p.checkShape t = .ok ()) :
    (p.prunedBy pruned).checkShape (pruned.pruneTail t) = .ok () := by
  cases t with
  | call c =>
    obtain ⟨block, hb, hl⟩ := checkShape_call.mp h
    exact checkShape_call.mpr
      ⟨_, by rw [Usage.pruneCall, blocks_prunedBy, hb]; rfl, pruned.length_kept_congr _ hl⟩
  | closure k args =>
    obtain ⟨closure, hk, hl⟩ := checkShape_closure.mp h
    exact checkShape_closure.mpr
      ⟨_, by rw [closures_prunedBy, hk]; rfl, pruned.length_kept_congr _ hl⟩
  | ret | enter | data | sel | prim => exact h

theorem atoms_pruneTail {t : Tail} {a : Atom} (ha : a ∈ (pruned.pruneTail t).atoms) :
    a ∈ t.atoms := by
  cases t with
  | call | closure => exact (pruned.kept_sublist _ _).subset ha
  | ret | enter | data | sel | prim => exact ha

theorem checkTail_prunedBy {t : Tail} (h : p.checkTail d t = .ok ()) :
    (p.prunedBy pruned).checkTail d (pruned.pruneTail t) = .ok () := by
  obtain ⟨hatoms, hshape⟩ := checkTail_eq_ok_iff.mp h
  refine checkTail_eq_ok_iff.mpr ⟨fun a ha => ?_, checkShape_prunedBy hshape⟩
  rw [checkAtom_prunedBy]
  exact hatoms a (atoms_pruneTail ha)

theorem outputs?_pruneTail (pruned : Usage) (t : Tail) :
    (pruned.pruneTail t).outputs? = t.outputs? := by
  cases t <;> rfl

theorem checkArms_mapCalls (f : Call → Call) (d : DefnId) (seen : List Ctor) (arms : List Arm) :
    checkArms d seen (arms.map fun arm => ⟨arm.ctor, f arm.call⟩) = checkArms d seen arms := by
  induction arms generalizing seen with
  | nil => rfl
  | cons arm arms ih => simp only [List.map_cons, checkArms, ih]

theorem checkAlts_prunedBy (f : Call → Call) (d : DefnId) (alts : Alts) :
    (p.prunedBy pruned).checkAlts d (alts.mapCalls f) = p.checkAlts d alts := by
  obtain ⟨arms, default⟩ := alts
  simp only [checkAlts, Alts.mapCalls, checkArms_mapCalls]
  cases default <;> cases arms <;> rfl

theorem checkCode_prunedBy {code : Code} {bound bound' : List Temp}
    (hbound : ∀ t ∈ bound', t ∈ bound) (h : p.checkCode d code bound = .ok ()) :
    (p.prunedBy pruned).checkCode d (pruned.pruneCode code) bound' = .ok () := by
  induction code generalizing bound bound' with
  | done t => exact checkTail_prunedBy h
  | bind vars t rest ih =>
    obtain ⟨ht, hout, hnodup, hnew, hrest⟩ := checkCode_bind.mp h
    refine checkCode_bind.mpr ⟨checkTail_prunedBy ht, ?_, hnodup, fun x hx hb =>
      hnew x hx (hbound x hb), ih (fun x hx => ?_) hrest⟩
    · rw [checkOutputs_eq_ok_iff, outputs?_pruneTail]
      exact checkOutputs_eq_ok_iff.mp hout
    · rw [List.mem_append] at hx ⊢
      exact hx.imp_right (hbound x)
  | assert a ctor rest ih =>
    obtain ⟨ha, hc, hrest⟩ := checkCode_assert.mp h
    exact checkCode_assert.mpr ⟨(checkAtom_prunedBy d a).trans ha, hc, ih hbound hrest⟩
  | branch test yes no =>
    obtain ⟨ha, hcalls⟩ := checkCode_branch.mp h
    refine checkCode_branch.mpr ⟨(checkAtom_prunedBy d test).trans ha, fun c hc => ?_⟩
    simp only [List.mem_cons, List.not_mem_nil, or_false] at hc
    obtain rfl | rfl := hc
    · exact checkTail_prunedBy (hcalls yes (by simp))
    · exact checkTail_prunedBy (hcalls no (by simp))
  | switch a alts =>
    obtain ⟨ha, hcalls, halts⟩ := checkCode_switch.mp h
    refine checkCode_switch.mpr ⟨(checkAtom_prunedBy d a).trans ha, fun c hc => ?_, ?_⟩
    · rw [Alts.calls_mapCalls, List.mem_map] at hc
      obtain ⟨c, hc, rfl⟩ := hc
      exact checkTail_prunedBy (hcalls c hc)
    · rw [checkAlts_prunedBy]
      exact halts

theorem checkDefn_prunedBy (h : p.checkDefn d = .ok ()) :
    (p.prunedBy pruned).checkDefn d = .ok () := by
  have hnamed {xs ys : List Temp} (h : xs.Sublist ys) : (named xs).Sublist (named ys) := h.filter _
  cases d with
  | block b =>
    obtain ⟨block, hb, hnodup, hcode⟩ := checkDefn_block.mp h
    have hsub := hnamed (pruned.kept_sublist (.block b) block.params)
    refine checkDefn_block.mpr ⟨_, by rw [blocks_prunedBy, hb]; rfl, hnodup.sublist hsub, ?_⟩
    refine checkCode_prunedBy (fun t ht => ?_) hcode
    rw [List.mem_reverse] at ht ⊢
    exact hsub.subset ht
  | closure k =>
    obtain ⟨closure, hk, hnodup, htail⟩ := checkDefn_closure.mp h
    have hsub := hnamed ((pruned.kept_sublist (.closure k) closure.stored).append_right
      closure.params)
    exact checkDefn_closure.mpr ⟨_, by rw [closures_prunedBy, hk]; rfl, hnodup.sublist hsub,
      checkTail_prunedBy htail⟩
  | top t =>
    obtain ⟨top, ht, htail, hout⟩ := checkDefn_top.mp h
    refine checkDefn_top.mpr ⟨_, by rw [tops_prunedBy, ht]; rfl, checkTail_prunedBy htail, ?_⟩
    rw [checkOutputs_eq_ok_iff, outputs?_pruneTail]
    exact checkOutputs_eq_ok_iff.mp hout

end Lookup

theorem Accounts.defines_of_mem_unused {usage : Usage}
    (h : p.Accounts usage (Component.allMembers p.components.toList)) (hcurrent : p.Current) :
    ∀ e ∈ usage.unused, p.defines e.1 = true := by
  intro e he
  have hentry : usage[e.1]? = some e.2 :=
    Std.TreeMap.mem_toList_iff_getElem?_eq_some.mp (List.mem_of_mem_filter he)
  obtain ⟨cs, hcs⟩ := hcurrent.callees (h.mem e.1 e.2 hentry)
  exact defines_of_callees hcs

end Program

def Change.ofRemoval (e : DefnId × List Bool) : Option Change :=
  if e.1.takesArgs then
    some ⟨some e.1, s!"removed {e.2.length - e.2.count true} unused argument(s) of {e.1.text}"⟩
  else none

namespace Pass

variable {s : Workbench}

theorem removeUnused_ok {d : DefnId} (hd : s.program.defines d = true) (flags : List Bool) :
    removeUnused d flags s = .ok ()
      { program := s.program.removeSlots d flags
        current := some d
        log := s.log ++ (Change.ofRemoval (d, flags)).toList
        count := s.count + (Change.ofRemoval (d, flags)).toList.length } := by
  cases d with
  | block b =>
    obtain ⟨block, hb⟩ := defines_block_iff.mp hd
    simp [removeUnused, bind_ok_iff, hb, setBlock, removeSlots,
      ← setIfInBounds_eq_modify hb, Change.ofRemoval, DefnId.takesArgs]
  | closure k =>
    obtain ⟨closure, hk⟩ := defines_closure_iff.mp hd
    simp [removeUnused, bind_ok_iff, hk, setClosure, removeSlots,
      ← setIfInBounds_eq_modify hk, Change.ofRemoval, DefnId.takesArgs]
  | top t => simp [removeUnused, removeSlots, Change.ofRemoval, DefnId.takesArgs]

theorem forEach_removeUnused_ok {entries : List (DefnId × List Bool)}
    (hd : ∀ e ∈ entries, s.program.defines e.1 = true) :
    ∃ current, forEach (fun e => removeUnused e.1 e.2) entries s = .ok ()
      { program := s.program.removeAll entries
        current
        log := s.log ++ entries.filterMap Change.ofRemoval
        count := s.count + (entries.filterMap Change.ofRemoval).length } := by
  induction entries generalizing s with
  | nil => exact ⟨s.current, by simp [forEach, removeAll]⟩
  | cons e entries ih =>
    have hfirst := removeUnused_ok (hd e (by simp)) e.2
    have hleft : ∀ e' ∈ entries, (s.program.removeSlots e.1 e.2).defines e'.1 = true :=
      fun e' he' => by
      rw [defines_removeSlots]
      exact hd e' (by simp [he'])
    generalize hs1 : Workbench.mk .. = s1 at hfirst
    obtain ⟨current, hrest⟩ := ih (s := s1) (by simpa [← hs1] using hleft)
    refine ⟨current, bind_ok_iff.mpr ⟨(), s1, hfirst, hrest.trans ?_⟩⟩
    rw [← hs1, removeAll_cons, List.filterMap_cons]
    cases Change.ofRemoval e <;> simp [Nat.add_comm, Nat.add_left_comm]

/-- Pruning by entries of different definitions removes what they do not mark and reports each
entry. -/
theorem prune_ok {entries : List (DefnId × List Bool)}
    (hpair : entries.Pairwise fun e e' => e.1 ≠ e'.1)
    (hd : ∀ e ∈ entries, s.program.defines e.1 = true) :
    prune entries s = .ok ()
      { program := s.program.prunedBy (.ofList entries)
        current := none
        log := s.log ++ entries.filterMap Change.ofRemoval
        count := s.count + (entries.filterMap Change.ofRemoval).length } := by
  obtain ⟨current, hall⟩ := forEach_removeUnused_ok hd
  simp only [prune, bind_ok_iff, workOn_eq_ok_iff, modify_ok_iff]
  refine ⟨(), _, hall, (), _, rfl, ?_⟩
  rw [removeAll_eq hpair]
  simp only [pruneCalls, prunedBy, Workbench.mk.injEq, Program.mk.injEq, true_and, and_true]
  exact ⟨Array.ext (by simp) (by simp), Array.ext (by simp) (by simp)⟩

/-- The pass comes to an end, and leaves the program without the slots that are not used. -/
theorem unusedArgs_ok {usage : Usage} (husage : s.program.usage = .ok usage)
    (hd : ∀ e ∈ usage.unused, s.program.defines e.1 = true) :
    ∃ s', unusedArgs s = .ok () s' ∧ s'.program = s.program.prunedBy usage.removable :=
  ⟨_, bind_ok_iff.mpr ⟨usage, s, look_eq_ok_iff.mpr ⟨husage, rfl⟩,
    prune_ok usage.unused_pairwise hd⟩, rfl⟩

end Pass

end MonadicIR
