import MonadicIR.Proofs.Heights
import MonadicIR.Proofs.StaleNotes

namespace MonadicIR

open Component

/-- If both are blocks without a rank, the second one is in no earlier component. -/
def Heights.NotAbove (w : Heights) (d d' : DefnId) : Prop := ∀ b b' i j, d = .block b →
    d' = .block b' →
  w.of b = some (.endless i) → w.of b' = some (.endless j) → i ≤ j

namespace Program

variable {p q : Program} {b : BlockId} {block : Block} {i : Nat} {c : Component}

/-- Retained blocks are there, know their components and refer only to earlier ones, or to their
own. -/
structure Layered (p : Program) : Prop where
  nodup : (Component.allMembers p.components.toList).Nodup
  block : ∀ (i : Nat) (c : Component) (b : BlockId), p.components[i]? = some c →
    .block b ∈ c.members →
    ∃ block, p.blocks[b.index]? = some block ∧ block.notes.component = some i ∧
      ∀ t, .block t ∈ block.code.refs → ∃ (j : Nat) (c' : Component), p.components[j]? = some c' ∧
        .block t ∈ c'.members ∧ (j < i ∨ j = i ∧ p.recursiveAt i = true)

theorem retained_iff {d : DefnId} :
    p.Retained d ↔ ∃ (i : Nat) (c : Component), p.components[i]? = some c ∧ d ∈ c.members := by
  simp only [Retained, allMembers, List.mem_flatMap, Array.mem_toList_iff]
  constructor
  · rintro ⟨c, hc, hd⟩
    obtain ⟨i, hi⟩ := Array.mem_iff_getElem?.mp hc
    exact ⟨i, c, hi, hd⟩
  · rintro ⟨i, c, hc, hd⟩
    exact ⟨c, Array.mem_of_getElem? hc, hd⟩

theorem Current.component_eq (h : p.Current) (hc : p.components[i]? = some c)
    (hb : .block b ∈ c.members)
    (hblock : p.blocks[b.index]? = some block) : block.notes.component = some i := by
  obtain ⟨cs, hcs, hp⟩ := h
  have hnodup : (cs.map members).flatten.Nodup := by
    rw [← List.flatMap_def]
    exact (decomposition_ofRoots hcs).nodup
  rw [← hp] at hblock hc
  have hc' : cs[i]? = some c := by simpa [setComponents] using hc
  have hposition : (positions (cs.map members))[DefnId.block b]? = some i :=
    (getElem?_positions hnodup).mpr ⟨c.members, by simp [hc'], hb⟩
  simp only [setComponents, Program.mapNotes, Array.getElem?_mapIdx,
    Option.map_eq_some_iff] at hblock
  obtain ⟨old, -, rfl⟩ := hblock
  exact hposition

theorem Current.layered (h : p.Current) : p.Layered := by
  have hdec := decomposition_ofRoots h.components
  refine ⟨hdec.nodup, fun i c b hc hb => ?_⟩
  have hmem : c ∈ p.components.toList := Array.mem_toList_iff.mpr (Array.mem_of_getElem? hc)
  obtain ⟨callees, hcallees⟩ := h.callees (retained_iff.mpr ⟨i, c, hc, hb⟩)
  obtain ⟨block, hblock, rfl⟩ := map_eq_ok_iff.mp hcallees
  refine ⟨block, block_eq_ok_iff.mp hblock, h.component_eq hc hb (block_eq_ok_iff.mp hblock),
    fun t ht => ?_⟩
  have hrefers : p.Refers (.block b) (.block t) := ⟨_, hcallees, mem_distinct.mpr ht⟩
  obtain ⟨j, c', hc', ht'⟩ := retained_iff.mp (h.retained_callee (retained_iff.mpr ⟨i, c, hc, hb⟩)
    hcallees (mem_distinct.mpr ht))
  refine ⟨j, c', hc', ht', ?_⟩
  by_cases hij : j = i
  · -- The way back from a block of the same component closes a circle.
    subst hij
    obtain rfl := Option.mem_unique hc hc'
    have hback := ((hdec.connected c hmem _ hb _).mp ht').2
    have hrecursive := (hdec.recursive c hmem).mpr ⟨_, hb, .head' hrefers hback⟩
    exact .inr ⟨rfl, by simp [recursiveAt, hc, hrecursive]⟩
  · have huses := ((hdec.uses i c (by simpa using hc)).2 j).mpr
      ⟨hij, c', by simpa using hc', _, hb, _, ht', hrefers⟩
    exact .inl (hdec.calleesFirst i c (by simpa using hc) j huses)

theorem Layered.setCode (h : p.Layered) (hblock : p.blocks[b.index]? = some block) {code : Code}
    (hrefs : ∀ d ∈ code.refs, d ∈ block.code.refs) :
      (p.setBlock b { block with code }).Layered := by
  refine ⟨h.nodup, fun i c x hc hx => ?_⟩
  obtain ⟨old, hold, hcomponent, hlayers⟩ := h.block i c x hc hx
  rw [getElem?_setBlock hblock]
  by_cases hxb : x = b
  · subst hxb
    obtain rfl := Option.mem_unique hblock hold
    exact ⟨_, if_pos rfl, hcomponent, fun t ht => hlayers t (hrefs _ ht)⟩
  · exact ⟨old, (if_neg hxb).trans hold, hcomponent, hlayers⟩

theorem Layered.callsBack (h : p.Layered) : p.CallsBack p.components.toList := by
  intro before c after heq b block hb hblock call hcall
  have hget (j : Nat) : p.components[j]? = (before ++ c :: after)[j]? := by
    rw [← heq, Array.getElem?_toList]
  obtain ⟨block', hblock', -, hlayers⟩ := h.block before.length c b (by simp [hget]) hb
  obtain rfl := Option.mem_unique hblock hblock'
  obtain ⟨j, c', hc', ht, hj⟩ := hlayers call.target
    (Code.mem_refs.mpr (.inr (.inl ⟨call, hcall, rfl⟩)))
  have hlt : j < (before ++ [c]).length := by
    rw [List.length_append, List.length_singleton]
    omega
  rw [hget, List.append_cons, List.getElem?_append_left hlt] at hc'
  exact List.mem_flatMap.mpr ⟨c', List.mem_of_getElem? hc', ht⟩

open Classical in
/-- The rank of a block that has one, and the component of any other. -/
noncomputable def startingHeight (p : Program) (b : BlockId) : Height :=
  if h : ∃ n, p.ReturnsWithin n b then .ranked (Nat.find h)
  else .endless (((p.blocks[b.index]?).bind fun block => block.notes.component).getD 0)

open Classical in
noncomputable def startingHeights (p : Program) : Heights :=
  ⟨fun b => if p.Retained (.block b) then some (p.startingHeight b) else none⟩

theorem startingHeights_of (hb : p.Retained (.block b)) :
    p.startingHeights.of b = some (p.startingHeight b) := if_pos hb

theorem of_startingHeights {h : Height} (hb : p.startingHeights.of b = some h) :
    p.Retained (.block b) ∧ p.startingHeight b = h := by
  simpa [startingHeights] using hb

theorem startingHeight_of_returnsWithin {n : Nat} (h : p.ReturnsWithin n b) :
    ∃ k, k ≤ n ∧ p.startingHeight b = .ranked k := by
  classical
  have hex : ∃ n, p.ReturnsWithin n b := ⟨n, h⟩
  exact ⟨Nat.find hex, Nat.find_min' hex h, dif_pos hex⟩

theorem returnsWithin_of_startingHeight {n : Nat} (h : p.startingHeight b = .ranked n) :
    p.ReturnsWithin n b := by
  classical
  unfold startingHeight at h
  split at h
  · rename_i hex
    obtain rfl := Height.ranked.inj h
    exact Nat.find_spec hex
  · cases h

theorem startingHeight_eq_endless {j : Nat} (h : p.startingHeight b = .endless j)
    (hblock : p.blocks[b.index]? = some block) (hi : block.notes.component = some i) :
    j = i ∧ ¬∃ n, p.ReturnsWithin n b := by
  unfold startingHeight at h
  split at h
  · cases h
  · rename_i hnone
    exact ⟨by simpa [hblock, hi, eq_comm] using h, hnone⟩

theorem startingHeight_ne_loose : p.startingHeight b ≠ .loose := by
  unfold startingHeight
  split <;> exact Height.noConfusion

theorem Layered.awaits (h : p.Layered) (hb : p.Retained (.block b))
    (hblock : p.blocks[b.index]? = some block) (hchoice : block.code.LeavesChoice p) :
    Heights.Awaits p p.startingHeights (p.startingHeight b) block.code := by
  obtain ⟨i, c, hc, hbc⟩ := retained_iff.mp hb
  obtain ⟨block', hblock', hi, hlayers⟩ := h.block i c b hc hbc
  obtain rfl := Option.mem_unique hblock hblock'
  have hcalls (call : Call) (hcall : call ∈ block.code.calls) :=
    hlayers call.target (Code.mem_refs.mpr (.inr (.inl ⟨call, hcall, rfl⟩)))
  have hretained (call : Call) (hcall : call ∈ block.code.calls) :
    p.Retained (.block call.target) := by
    obtain ⟨j, c', hc', ht, -⟩ := hcalls call hcall
    exact retained_iff.mpr ⟨j, c', hc', ht⟩
  have hknown (call : Call) (hcall : call ∈ block.code.calls) :
    p.startingHeights.Known call.target :=
    ⟨_, startingHeights_of (hretained call hcall), trivial⟩
  cases hheight : p.startingHeight b with
  | ranked n =>
    -- The code may return through blocks of smaller ranks.
    obtain _ | n := n
    · exact (returnsWithin_of_startingHeight hheight).elim
    obtain ⟨block', hblock', hreturns⟩ := returnsWithin_of_startingHeight hheight
    obtain rfl := Option.mem_unique hblock hblock'
    have hmay : block.code.MayReturn
        (p.startingHeights.At ((Height.ranked (n + 1)).Ends p.recursiveAt)) := by
      refine hreturns.mono fun call hcall hwithin => ?_
      obtain ⟨k, hk, hkeq⟩ := startingHeight_of_returnsWithin hwithin
      exact ⟨.ranked k, hkeq ▸ startingHeights_of (hretained call hcall), Nat.lt_succ_of_le hk⟩
    exact ⟨Height.noConfusion, hmay.callsTo hknown, hmay.agrees, hchoice⟩
  | endless j =>
    obtain ⟨rfl, -⟩ := startingHeight_eq_endless hheight hblock hi
    have hall : block.code.CallsTo _ _ _ := Code.callsTo_of_calls
      (f := p.startingHeights.At ((Height.endless j).Ends p.recursiveAt)) fun call hcall => by
        refine ⟨_, startingHeights_of (hretained call hcall), ?_⟩
        cases htarget : p.startingHeight call.target with
        | ranked n => trivial
        | loose => exact absurd htarget startingHeight_ne_loose
        | endless l =>
          obtain ⟨k, c', hc', ht, hk⟩ := hcalls call hcall
          obtain ⟨target, htarget', hcomponent, -⟩ := h.block k c' _ hc' ht
          obtain ⟨rfl, -⟩ := startingHeight_eq_endless htarget htarget' hcomponent
          exact hk
    exact ⟨Height.noConfusion, hall.mono (fun _ => id) (fun _ => id) fun _ => Heights.At.known,
      Code.agrees_of_callsTo hall fun _ => id, hchoice⟩
  | loose => exact absurd hheight startingHeight_ne_loose

/-- Simplifying makes a jump of no case of a retained block. -/
def CasesLeaveChoice (p : Program) : Prop :=
  ∀ b block, p.Retained (.block b) → p.blocks[b.index]? = some block → block.code.LeavesChoice p

/-- After the return analysis, all retained blocks stand at their heights and are still to be done. -/
theorem Layered.holds (h : p.Layered) (hunderived : ∀ block ∈ p.blocks, block.derived = [])
    (hchoice : p.CasesLeaveChoice) {g : DefnId → Bool}
    (hg : p.Ranked g (allMembers p.components.toList)) :
    Heights.Holds p {b | p.Retained (.block b)} p.startingHeights (p.noted g) := by
  refine ⟨rfl, rfl, fun b hb => ⟨_, startingHeights_of hb, trivial⟩, fun b l hl => ?_⟩
  obtain ⟨hb, rfl⟩ := of_startingHeights hl
  obtain ⟨i, c, hc, hbc⟩ := retained_iff.mp hb
  obtain ⟨block, hblock, hi, -⟩ := h.block i c b hc hbc
  have hawaits := h.awaits hb hblock (hchoice b block hb hblock)
  have hnoted := p.getElem?_blocks_noted g b
  rw [hblock, Option.map_some] at hnoted
  refine ⟨_, hnoted, ?_, fun j hj => ?_, fun _ => hawaits, fun hdone => absurd hb hdone⟩
  · simp [hunderived block (Array.mem_of_getElem? hblock)]
  · obtain ⟨rfl, hnone⟩ := startingHeight_eq_endless hj hblock hi
    exact ⟨Bool.of_not_eq_false fun hfalse => hnone (hg b hb hfalse), hi⟩

/-- Members of the components come in the order of their heights, as far as these are components. -/
theorem Layered.pairwise_notAbove (h : p.Layered) :
    (allMembers p.components.toList).Pairwise p.startingHeights.NotAbove := by
  have hplace {i j : Nat} {c : Component} {b : BlockId} (hc : p.components[i]? = some c)
      (hb : .block b ∈ c.members) (hj : p.startingHeights.of b = some (.endless j)) : j = i := by
    obtain ⟨block, hblock, hi, -⟩ := h.block i c b hc hb
    exact (startingHeight_eq_endless (of_startingHeights hj).2 hblock hi).1
  refine List.pairwise_flatMap.mpr ⟨fun c hc => ?_, List.pairwise_iff_getElem.mpr
    fun i j hi hj hij => ?_⟩
  · obtain ⟨i, hi⟩ := Array.mem_iff_getElem?.mp (Array.mem_toList_iff.mp hc)
    refine List.pairwise_of_forall_mem_list ?_
    rintro _ hb _ hb' b b' k l rfl rfl hk hl
    rw [hplace hi hb hk, hplace hi hb' hl]
  · rintro _ hb _ hb' b b' k l rfl rfl hk hl
    rw [hplace (by simpa using Array.getElem?_eq_getElem (by simpa using hi)) hb hk,
      hplace (by simpa using Array.getElem?_eq_getElem (by simpa using hj)) hb' hl]
    exact hij.le

end Program

end MonadicIR
