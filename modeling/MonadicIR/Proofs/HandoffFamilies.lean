import MonadicIR.Proofs.Checked
import MonadicIR.Proofs.HandoffRuns
import MonadicIR.Proofs.Splicing

namespace MonadicIR

open Edit Program

namespace Program

variable {p : Program} {d : DefnId}

theorem lt_of_endCalls {code : Code} {bound : List Temp} (h : p.checkCode d code bound = .ok ()) :
    ∀ c ∈ code.endCalls, c.target.index < p.blocks.size := by
  have hcall {c : Call} (hc : p.checkTail d (.call c) = .ok ()) :
    c.target.index < p.blocks.size := by
    obtain ⟨block, hblock, -⟩ := checkShape_call.mp (checkTail_eq_ok_iff.mp hc).2
    exact (Array.getElem?_eq_some_iff.mp hblock).1
  induction code generalizing bound with
  | bind vars t rest ih => exact ih (checkCode_bind.mp h).2.2.2.2
  | assert a ctor rest ih => exact ih (checkCode_assert.mp h).2.2
  | done t =>
    cases t with
    | call c =>
      simp only [Code.endCalls, List.mem_singleton, forall_eq]
      exact hcall h
    | ret | enter | data | closure | sel | prim => simp [Code.endCalls]
  | branch test yes no => exact fun c hc => hcall ((checkCode_branch.mp h).2 c hc)
  | switch a alts => exact fun c hc => hcall ((checkCode_switch.mp h).2.1 c hc)

def JumpsDefined (p : Program) : Prop :=
  ∀ ⦃b block⦄, p.block b = .ok block → ∀ c ∈ block.code.endCalls, c.target.index < p.blocks.size

theorem jumpsDefined_of_checked (h : ∀ d ∈ p.allDefns, p.checkDefn d = .ok ()) :
    p.JumpsDefined := by
  intro b block hblock
  have hb : .block b ∈ p.allDefns := by
    rw [mem_allDefns]
    have := (Array.getElem?_eq_some_iff.mp (block_eq_ok_iff.mp hblock)).1
    simpa [defines] using this
  obtain ⟨block', hblock', -, hcode⟩ := checkDefn_block.mp (h _ hb)
  obtain rfl := Option.some.inj ((block_eq_ok_iff.mp hblock).symm.trans hblock')
  exact lt_of_endCalls hcode

theorem tailNeverReturns_of_call? (p : Program) {t : Tail} (ht : t.call? = none) :
    p.tailNeverReturns t = .ok t.blackholes := by
  cases t with
  | call => cases ht
  | prim q args => cases q <;> rfl
  | ret | enter | data | closure | sel => rfl

end Program

namespace Edit

theorem getElem?_addDerivedBlock {p p' : Program} {source d : BlockId} {block old : Block}
    (h : addDerivedBlock source block p = .ok d p') (hold : p.blocks[source.index]? = some old)
    (x : BlockId) : p'.blocks[x.index]? =
      if x = source then some { old with derived := old.derived ++ [d] }
      else if x = d then some block else p.blocks[x.index]? := by
  have hlt := (Array.getElem?_eq_some_iff.mp hold).1
  simp only [addDerivedBlock, bind_ok_iff, addBlock, update_eq_ok_iff, modifyBlock_eq_ok_iff,
    pure_ok_iff, exists_unit] at h
  obtain ⟨_, p1, hp1, p2, ⟨old', hold', rfl⟩, rfl, rfl⟩ := h
  obtain ⟨rfl, rfl⟩ := Prod.mk.inj hp1
  obtain rfl : old = old' := by
    simp only [Array.getElem?_push, Nat.ne_of_lt hlt, if_false] at hold'
    exact Option.mem_unique hold hold'
  rw [getElem?_setBlock hold']
  have hx : x = ⟨p.blocks.size⟩ ↔ x.index = p.blocks.size := by
    cases x
    exact BlockId.mk.injEq _ _ ▸ Iff.rfl
  simp only [Array.getElem?_push, hx]

theorem temps_addDerivedBlock {p p' : Program} {source d : BlockId} {block : Block}
    (h : addDerivedBlock source block p = .ok d p') : p'.temps = p.temps := by
  simp only [addDerivedBlock, bind_ok_iff, addBlock, update_eq_ok_iff, modifyBlock_eq_ok_iff,
    pure_ok_iff, exists_unit] at h
  obtain ⟨_, p1, hp1, p2, ⟨old, hold, rfl⟩, rfl, rfl⟩ := h
  obtain ⟨rfl, rfl⟩ := Prod.mk.inj hp1
  rfl

theorem exists_addDerivedBlock (p : Program) {source : BlockId}
    (hsource : source.index < p.blocks.size) (block : Block) :
    ∃ d p', addDerivedBlock source block p = .ok d p' := by
  have hold : (p.addBlock block).2.blocks[source.index]? = some p.blocks[source.index] := by
    simp [Program.addBlock, Array.getElem?_push, hsource, Nat.ne_of_lt hsource]
  exact ⟨_, _, bind_ok_iff.mpr ⟨_, _, update_eq_ok_iff.mpr rfl,
    bind_ok_iff.mpr ⟨(), _, modifyBlock_eq_ok_iff.mpr ⟨_, hold, rfl⟩, rfl⟩⟩⟩

end Edit

theorem Code.endCalls_copyFresh (code : Code) (m : Temps) (s : Subst) :
    (code.copyFresh m s).1.endCalls.map Call.target = code.endCalls.map Call.target := by
  have hcall (c : Call) : (c.apply s).target = c.target := rfl
  induction code generalizing m s with
  | bind vars t rest ih => exact ih _ _ fun _ => rfl
  | assert a ctor rest ih => exact ih _ _ fun _ => rfl
  | done t => cases t <;> rfl
  | branch test yes no => rfl
  | switch a alts =>
    simp only [copyFresh, endCalls, Alts.calls_mapCalls, List.map_map]
    rfl

/-- Given the arguments of the block and further ones, a copy with parameters for all of them runs
like the block. -/
theorem Block.PassesOn.of_copyFresh {h : Handoff} {C : BlockId → BlockId → Prop}
    {block copy : Block} {own extras : List Temp} {n : Nat} {m1 m2 : Temps} (hn : 0 < n)
    (hown : Fresh n block.params own m1.size) (hextras : Fresh m1.size extras extras m2.size)
    (hlen : extras.length = h.extras) (hle : ∀ x ∈ extras, m1.size ≤ x.index)
    (hparams : copy.params = own ++ extras)
    (hcode : Code.PassesOn h C extras
      (block.code.copyFresh m2 (({} : Subst).renameAll block.params own)).1 copy.code) :
    block.PassesOn h C copy := by
  have hnamed : ∀ x ∈ extras, x.isWildcard = false := fun x hx =>
    Temp.isWildcard_of_le (lt_of_lt_of_le hn hown.le) (hle x hx)
  refine ⟨by simp [hparams, hown.length_eq, hlen], extras, _, hcode, fun vs given hvs hgiven => ?_⟩
  have hnil : Env.Below [] n := by simp [Env.Below]
  have hempty : ({} : Subst).Carries (fun _ _ => False) [] [] := .nil
  obtain ⟨hcarries, hbelow⟩ := hown.carries hn hempty hnil hvs
  rw [hparams, Env.bind_append (hown.length_eq.trans hvs.symm)]
  have hsub := (Env.Sub.refl (Env.bind [] own vs)).bind_right hbelow
    (fun v hv => (hextras.bounds hv).1) given
  constructor
  · refine .copyFresh (fun _ _ hx => (hcarries hx).sub hsub)
      (lt_of_lt_of_le hn (le_trans hown.le hextras.le)) ?_ block.code
    exact (hbelow.mono hextras.le).bind (fun v hv => (hextras.bounds hv).2) given
  · exact Env.map_lookup_bind (named_eq_self hnamed ▸ hextras.nodup) hnamed (hlen.trans hgiven.symm)

/-- The block lists the second one as its only copy. -/
def Program.Lists (p : Program) (b d : BlockId) : Prop :=
  ∃ block, p.blocks[b.index]? = some block ∧ block.derived = [d]

/-- Programs on the way: the blocks of the first one are there, and each lists a copy that hands its
result on, or none yet. -/
structure Family (h : Handoff) (p0 p : Program) : Prop where
  keeps : p0.Keeps p
  listed : ∀ ⦃b : BlockId⦄ ⦃block : Block⦄, b.index < p0.blocks.size →
    p.blocks[b.index]? = some block →
    block.derived = [] ∨ ∃ d copy, block.derived = [d] ∧ p.blocks[d.index]? = some copy ∧
      copy.origin = h.origin (block.origin.depth + 1)

/-- Pairs of a block of the first program and the copy that the second program lists for it. -/
def Copies (p0 p : Program) (b d : BlockId) : Prop := b.index < p0.blocks.size ∧ p.Lists b d

def Completed (h : Handoff) (p0 p : Program) (b d : BlockId) : Prop :=
  ∃ block copy, p.block b = .ok block ∧ p.block d = .ok copy ∧ block.PassesOn h (Copies p0 p) copy

/-- Copies have been added, and those that are now listed have their bodies. -/
structure Grown (h : Handoff) (p0 p p' : Program) : Prop where
  family : Family h p0 p'
  keeps : p.Keeps p'
  temps : p.temps.size ≤ p'.temps.size
  stays : ∀ ⦃b d⦄, Copies p0 p b d → Copies p0 p' b d
  new : ∀ ⦃b d⦄, Copies p0 p' b d → Copies p0 p b d ∨
    p.blocks.size ≤ d.index ∧ Completed h p0 p' b d

def unlisted (p0 p : Program) : Finset Nat :=
  (Finset.range p0.blocks.size).filter fun i => (p.blocks[i]?).any (·.derived.isEmpty)

section Growth

variable {h : Handoff} {p0 p p' p'' : Program}

theorem Program.Keeps.size_le (h : p.Keeps p') : p.blocks.size ≤ p'.blocks.size := by
  by_contra hlt
  have hlast : p.blocks[p'.blocks.size]? = some p.blocks[p'.blocks.size] :=
    Array.getElem?_eq_getElem _
  obtain ⟨derived, hnone⟩ := h.block (b := ⟨p'.blocks.size⟩) hlast
  simp at hnone

theorem Family.exists_block (hf : Family h p0 p) {b : BlockId} (hb : b.index < p0.blocks.size) :
    ∃ block, p.blocks[b.index]? = some block ∧
      ∃ derived, p0.blocks[b.index]? = some { block with derived } := by
  have hblock : p0.blocks[b.index]? = some p0.blocks[b.index] := Array.getElem?_eq_getElem hb
  obtain ⟨derived, hkept⟩ := hf.keeps.block hblock
  exact ⟨_, hkept, p0.blocks[b.index].derived, hblock⟩

theorem Completed.keeps {b d : BlockId} (hc : Completed h p0 p b d) (hkeeps : p.Keeps p')
    (hstays : ∀ ⦃b d⦄, Copies p0 p b d → Copies p0 p' b d) : Completed h p0 p' b d := by
  obtain ⟨block, copy, hblock, hcopy, hpasses⟩ := hc
  obtain ⟨derived, hblock'⟩ := hkeeps.block (block_eq_ok_iff.mp hblock)
  obtain ⟨derived', hcopy'⟩ := hkeeps.block (block_eq_ok_iff.mp hcopy)
  have himp := hpasses.imp hstays
  exact ⟨_, _, block_eq_ok_iff.mpr hblock', block_eq_ok_iff.mpr hcopy',
    himp.length, himp.runs⟩

theorem Family.grown (hf : Family h p0 p) : Grown h p0 p p where
  family := hf
  keeps := .refl p
  temps := le_rfl
  stays _ _ := id
  new _ _ := .inl

theorem Grown.trans (hg : Grown h p0 p p') (hg' : Grown h p0 p' p'') : Grown h p0 p p'' where
  family := hg'.family
  keeps := hg.keeps.trans hg'.keeps
  temps := le_trans hg.temps hg'.temps
  stays _ _ hc := hg'.stays (hg.stays hc)
  new b d hc := by
    obtain hc | ⟨hd, hc⟩ := hg'.new hc
    · exact (hg.new hc).imp_right fun hc => ⟨hc.1, hc.2.keeps hg'.keeps hg'.stays⟩
    · exact .inr ⟨le_trans hg.keeps.size_le hd, hc⟩

theorem Family.withTemps (hf : Family h p0 p) {m : Temps} (hm : p.temps.size ≤ m.size) :
    Grown h p0 p { p with temps := m } where
  family := ⟨hf.keeps.trans (.withTemps p m), hf.listed⟩
  keeps := .withTemps p m
  temps := hm
  stays _ _ := id
  new _ _ := .inl

theorem unlisted_subset (hf : Family h p0 p)
    (hstays : ∀ ⦃b d⦄, Copies p0 p b d → Copies p0 p' b d) : unlisted p0 p' ⊆ unlisted p0 p := by
  intro i hi
  simp only [unlisted, Finset.mem_filter, Finset.mem_range] at hi ⊢
  obtain ⟨hlt, hi⟩ := hi
  refine ⟨hlt, ?_⟩
  obtain ⟨block, hblock, -⟩ := hf.exists_block (b := ⟨i⟩) hlt
  obtain hnone | ⟨d, copy, hd, -⟩ := hf.listed hlt hblock
  · simp only at hblock
    simp [hblock, hnone]
  · obtain ⟨-, block', hblock', hd'⟩ := hstays ⟨hlt, block, hblock, hd⟩
    simp only at hblock'
    simp [hblock', hd'] at hi

theorem Family.setBody (hf : Family h p0 p) {d : BlockId} (hd : p0.blocks.size ≤ d.index)
    {new : Block} (hnew : p.blocks[d.index]? = some new) (code : Code) :
    Family h p0 (p.setBlock d { new with code }) ∧
      ∀ b' d', Copies p0 (p.setBlock d { new with code }) b' d' ↔ Copies p0 p b' d' := by
  have hlookup := Program.getElem?_setBlock hnew { new with code }
  have hold {x : BlockId} (hx : x.index < p0.blocks.size) :
      (p.setBlock d { new with code }).blocks[x.index]? = p.blocks[x.index]? := by
    rw [hlookup, if_neg]
    rintro rfl
    omega
  refine ⟨⟨hf.keeps.setNew hnew (Array.getElem?_eq_none hd) _, fun b block hb hblock => ?_⟩,
    fun b' d' => ?_⟩
  · rw [hold hb] at hblock
    obtain hnone | ⟨d', copy, hd', hcopy, horigin⟩ := hf.listed hb hblock
    · exact .inl hnone
    · by_cases hdd : d' = d
      · subst hdd
        obtain rfl := Option.mem_unique hnew hcopy
        exact .inr ⟨d', { new with code }, hd', by rw [hlookup, if_pos rfl], horigin⟩
      · exact .inr ⟨d', copy, hd', by rw [hlookup, if_neg hdd, hcopy], horigin⟩
  · exact and_congr_right fun hb => by rw [Program.Lists, Program.Lists, hold hb]

section Register

variable {q : Program} {b d : BlockId} {block new : Block} (hf : Family h p0 p)
  (hblock : p.blocks[b.index]? = some block) (hnone : block.derived = [])
  (hadd : Edit.addDerivedBlock b new p = .ok d q)
include hf hblock hnone hadd

/-- A block that listed nothing lists its copy, and the others list what they did. -/
theorem Family.copies_register (hb : b.index < p0.blocks.size) {b' d' : BlockId} :
    Copies p0 q b' d' ↔ Copies p0 p b' d' ∨ b' = b ∧ d' = d := by
  obtain ⟨rfl, -, -⟩ := Edit.addDerivedBlock_ok hadd (Array.getElem?_eq_some_iff.mp hblock).1
  have hlookup := Edit.getElem?_addDerivedBlock hadd hblock b'
  have hsize := hf.keeps.size_le
  by_cases hbb : b' = b
  · subst hbb
    simp only [if_true, hnone, List.nil_append] at hlookup
    simp [Copies, Program.Lists, hlookup, hblock, hnone, hb, eq_comm]
  · by_cases hlt : b'.index < p0.blocks.size
    · have hne : b' ≠ ⟨p.blocks.size⟩ := by
        rintro rfl
        simp only at hlt
        omega
      simp [Copies, Program.Lists, hlookup, hbb, hne]
    · simp [Copies, hlt, hbb]

theorem Family.register (horigin : new.origin = h.origin (block.origin.depth + 1)) :
    Family h p0 q := by
  obtain ⟨rfl, hd, hkeeps⟩ := addDerivedBlock_ok hadd (Array.getElem?_eq_some_iff.mp hblock).1
  have hsize := hf.keeps.size_le
  refine ⟨hf.keeps.trans hkeeps, fun b' block' hb' hblock' => ?_⟩
  have hlookup := getElem?_addDerivedBlock hadd hblock b'
  rw [hblock'] at hlookup
  split at hlookup
  case isTrue =>
    obtain rfl := Option.some.inj hlookup
    exact .inr ⟨_, new, by simp [hnone], block_eq_ok_iff.mp hd, horigin⟩
  case isFalse =>
    have hne : b' ≠ ⟨p.blocks.size⟩ := by
      rintro rfl
      simp only at hb'
      omega
    rw [if_neg hne] at hlookup
    obtain hnone' | ⟨d', copy, hd', hcopy, horigin'⟩ := hf.listed hb' hlookup.symm
    · exact .inl hnone'
    · obtain ⟨derived, hcopy'⟩ := hkeeps.block hcopy
      exact .inr ⟨d', _, hd', hcopy', horigin'⟩

theorem unlisted_register (hb : b.index < p0.blocks.size) :
    (unlisted p0 q).card < (unlisted p0 p).card := by
  have hsubset : unlisted p0 q ⊆ unlisted p0 p :=
    unlisted_subset hf fun _ _ hc => (hf.copies_register hblock hnone hadd hb).mpr (.inl hc)
  refine Finset.card_lt_card (Finset.ssubset_iff_of_subset hsubset |>.mpr ⟨b.index, ?_, ?_⟩)
  · simp [unlisted, hb, hblock, hnone]
  · have hlookup := getElem?_addDerivedBlock hadd hblock b
    simp [unlisted, hlookup]

theorem Family.complete (hb : b.index < p0.blocks.size) {q' : Program} (hg : Grown h p0 q q')
    {made : Block} (hmade : q'.blocks[d.index]? = some made) {code : Code}
    (hpasses : block.PassesOn h (Copies p0 q') { made with code }) :
    Grown h p0 p (q'.setBlock d { made with code }) ∧
      Copies p0 (q'.setBlock d { made with code }) b d := by
  have hregister {b' d' : BlockId} : Copies p0 q b' d' ↔ Copies p0 p b' d' ∨ b' = b ∧ d' = d :=
    hf.copies_register hblock hnone hadd hb
  obtain ⟨rfl, hd, hkeeps⟩ := Edit.addDerivedBlock_ok hadd (Array.getElem?_eq_some_iff.mp hblock).1
  have hnew : p.blocks.size < q.blocks.size :=
    (Array.getElem?_eq_some_iff.mp (Program.block_eq_ok_iff.mp hd)).1
  have hsize := hf.keeps.size_le
  obtain ⟨hfamily, hcopies⟩ := hg.family.setBody hsize hmade code
  have hlookup := Program.getElem?_setBlock hmade { made with code }
  have hkept := (hkeeps.trans hg.keeps).setNew hmade (Array.getElem?_eq_none le_rfl)
    { made with code }
  have hstays ⦃b' d'⦄ (hc : Copies p0 q' b' d') :
      Copies p0 (q'.setBlock ⟨p.blocks.size⟩ { made with code }) b' d' := (hcopies b' d').mpr hc
  refine ⟨⟨hfamily, hkept, ?_, fun b' d' hc => hstays (hg.stays (hregister.mpr (.inl hc))), ?_⟩,
    hstays (hg.stays (hregister.mpr (.inr ⟨rfl, rfl⟩)))⟩
  · exact Edit.temps_addDerivedBlock hadd ▸ hg.temps
  · intro b' d' hc
    obtain hc | ⟨hlt, block', copy, hblock', hcopy, hpasses'⟩ := hg.new ((hcopies b' d').mp hc)
    · refine (hregister.mp hc).imp_right ?_
      rintro ⟨rfl, rfl⟩
      obtain ⟨derived, hblock'⟩ := hkept.block hblock
      have himp := hpasses.imp hstays
      exact ⟨le_rfl, _, _, Program.block_eq_ok_iff.mpr hblock',
        Program.block_eq_ok_iff.mpr (by rw [hlookup, if_pos rfl]), himp.length, himp.runs⟩
    · -- what was made in between is neither the copy nor its source
      have hne {x : BlockId} (hx : x.index ≠ p.blocks.size) :
          (q'.setBlock ⟨p.blocks.size⟩ { made with code }).block x = q'.block x := by
        have hx : x ≠ ⟨p.blocks.size⟩ := fun h => hx (h ▸ rfl)
        simp only [Program.block, hlookup, if_neg hx]
      refine .inr ⟨by omega, block', copy, ?_, ?_, hpasses'.imp hstays⟩
      · rw [hne (by have := hc.1; omega), hblock']
      · rw [hne (by omega), hcopy]

end Register

/-- Copies can be made for so many more blocks. -/
structure Ready (h : Handoff) (p0 : Program) (fuel : Nat) (p : Program) : Prop where
  family : Family h p0 p
  temps : 0 < p.temps.size
  left : (unlisted p0 p).card < fuel

theorem Ready.grown {fuel : Nat} (hr : Ready h p0 fuel p) (hg : Grown h p0 p p') :
    Ready h p0 fuel p' where
  family := hg.family
  temps := lt_of_lt_of_le hr.temps hg.temps
  left := lt_of_le_of_lt (Finset.card_le_card (unlisted_subset hr.family hg.stays)) hr.left

theorem Ready.register {fuel : Nat} (hr : Ready h p0 (fuel + 1) p) {q : Program} {b d : BlockId}
    {block new : Block} (hblock : p.blocks[b.index]? = some block) (hnone : block.derived = [])
    (hadd : addDerivedBlock b new p = .ok d q) (hb : b.index < p0.blocks.size)
    (horigin : new.origin = h.origin (block.origin.depth + 1)) : Ready h p0 fuel q where
  family := hr.family.register hblock hnone hadd horigin
  temps := temps_addDerivedBlock hadd ▸ hr.temps
  left := by
    have hcard := unlisted_register hr.family hblock hnone hadd hb
    have hleft := hr.left
    omega

end Growth

namespace Pass

variable {h : Handoff} {p0 : Program} {fuel : Nat} {derive : BlockId → Pass BlockId}
  {xs : List Temp}
  {w : Workbench}

/-- Gives the copies of all blocks of the first program. -/
def Completes (h : Handoff) (p0 : Program) (fuel : Nat) (derive : BlockId → Pass BlockId) : Prop :=
  ∀ ⦃b w⦄, Ready h p0 fuel w.program → b.index < p0.blocks.size → ∃ d w', derive b w = .ok d w' ∧
    Grown h p0 w.program w'.program ∧ Copies p0 w'.program b d

section HandOff

variable (hderive : Completes h p0 fuel derive)
include hderive

variable (hr : Ready h p0 fuel w.program)

include hr

theorem exists_handOffCall {c : Call} (hc : c.target.index < p0.blocks.size) :
    ∃ c' w', handOffCall xs derive c w = .ok c' w' ∧
      Grown h p0 w.program w'.program ∧ c.PassesOn (Copies p0 w'.program) xs c' := by
  obtain ⟨d, w', hd, hg, hcopy⟩ := hderive hr hc
  refine ⟨⟨d, c.args ++ xs.map .temp⟩, w', ?_, hg, hcopy, rfl⟩
  exact bind_ok_iff.mpr ⟨d, w', hd, rfl⟩

theorem exists_handOffArms {arms : List Arm}
    (harms : ∀ arm ∈ arms, arm.call.target.index < p0.blocks.size) :
    ∃ arms' w', handOffArms xs derive arms w = .ok arms' w' ∧ Grown h p0 w.program w'.program ∧
      List.Forall₂ (fun x y => y.ctor = x.ctor ∧ x.call.PassesOn (Copies p0 w'.program) xs y.call)
        arms arms' := by
  induction arms generalizing w with
  | nil => exact ⟨[], w, rfl, hr.family.grown, .nil⟩
  | cons arm arms ih =>
    rw [List.forall_mem_cons] at harms
    obtain ⟨c', w1, hc', hg1, hpasses⟩ := exists_handOffCall hderive hr harms.1
    obtain ⟨arms', w2, harms', hg2, hall⟩ := ih (hr.grown hg1) harms.2
    refine ⟨⟨arm.ctor, c'⟩ :: arms', w2, ?_, hg1.trans hg2, .cons ⟨rfl, hpasses.imp hg2.stays⟩ hall⟩
    exact bind_ok_iff.mpr ⟨c', w1, hc', bind_ok_iff.mpr ⟨arms', w2, harms', rfl⟩⟩

theorem exists_handOffDefault {default : Option Call}
    (hdefault : ∀ c ∈ default, c.target.index < p0.blocks.size) :
    ∃ default' w', handOffDefault xs derive default w = .ok default' w' ∧
      Grown h p0 w.program w'.program ∧
      Option.Rel (Call.PassesOn (Copies p0 w'.program) xs) default default' := by
  cases default with
  | none => exact ⟨none, w, rfl, hr.family.grown, .none⟩
  | some c =>
    obtain ⟨c', w', hc', hg, hpasses⟩ := exists_handOffCall hderive hr (hdefault c rfl)
    exact ⟨some c', w', bind_ok_iff.mpr ⟨c', w', hc', rfl⟩, hg, .some hpasses⟩

theorem exists_handOffCode {code : Code}
    (hcalls : ∀ c ∈ code.endCalls, c.target.index < p0.blocks.size)
    (hnew : ∀ x ∈ xs, x ∉ code.boundTemps) (hxs : ∀ x ∈ xs, x.index < w.program.temps.size) :
    ∃ code' w', handOffCode h xs derive code w = .ok code' w' ∧ Grown h p0 w.program w'.program ∧
      code.PassesOn h (Copies p0 w'.program) xs code' := by
  induction code generalizing w with
  | bind vars t rest ih =>
    obtain ⟨rest', w', hrest', hg, hpasses⟩ := ih hr hcalls
      (fun x hx hmem => hnew x hx (List.mem_append_right _ hmem)) hxs
    refine ⟨.bind vars t rest', w', bind_ok_iff.mpr ⟨rest', w', hrest', rfl⟩, hg,
      .bind (fun x hx hmem => hnew x hx (List.mem_append_left _ hmem)) hpasses⟩
  | assert a ctor rest ih =>
    obtain ⟨rest', w', hrest', hg, hpasses⟩ := ih hr hcalls hnew hxs
    exact ⟨.assert a ctor rest', w', bind_ok_iff.mpr ⟨rest', w', hrest', rfl⟩, hg,
      .assert hpasses⟩
  | done t =>
    cases hcall : t.call? with
    | some c =>
      obtain rfl : t = .call c := by cases t <;> simp_all [Tail.call?]
      have hc := hcalls c (by simp [Code.endCalls])
      obtain ⟨c', w', hc', hg, hpasses⟩ := exists_handOffCall hderive hr hc
      exact ⟨.jump c', w', bind_ok_iff.mpr ⟨c', w', hc', rfl⟩, hg, .jump hpasses⟩
    | none =>
      rw [handOffCode_done hcall]
      have hnever := w.program.tailNeverReturns_of_call? hcall
      cases ht : t.blackholes with
      | true =>
        refine ⟨.done t, w, ?_, hr.family.grown, .stop ht⟩
        exact bind_ok_iff.mpr ⟨_, w, look_eq_ok_iff.mpr ⟨hnever, rfl⟩, by simp [ht]⟩
      | false =>
        obtain ⟨v, p', hv⟩ := exists_fresh w.program
        obtain ⟨rfl, m, rfl, hm⟩ := fresh_ok hv
        refine ⟨.bind [⟨w.program.temps.size⟩] t (.done (h.tail xs ⟨w.program.temps.size⟩)),
          { w with program := { w.program with temps := m } }, ?_, hr.family.withTemps (by omega),
          .value (Temp.isWildcard_of_le hr.temps le_rfl) fun hmem => ?_⟩
        · refine bind_ok_iff.mpr ⟨_, w, look_eq_ok_iff.mpr ⟨hnever, rfl⟩, ?_⟩
          simp only [ht, Bool.or_self, Bool.false_eq_true, if_false]
          exact bind_ok_iff.mpr ⟨_, _, edit_eq_ok_iff.mpr ⟨_, hv, rfl⟩, rfl⟩
        · exact Nat.lt_irrefl _ (hxs _ hmem)
  | branch test yes no =>
    have hyes := hcalls yes (by simp [Code.endCalls])
    have hno := hcalls no (by simp [Code.endCalls])
    obtain ⟨yes', w1, hyes', hg1, hpasses⟩ := exists_handOffCall hderive hr hyes
    obtain ⟨no', w2, hno', hg2, hpasses'⟩ := exists_handOffCall hderive (hr.grown hg1) hno
    refine ⟨.branch test yes' no', w2, ?_, hg1.trans hg2, .branch (hpasses.imp hg2.stays) hpasses'⟩
    exact bind_ok_iff.mpr ⟨yes', w1, hyes', bind_ok_iff.mpr ⟨no', w2, hno', rfl⟩⟩
  | switch a alts =>
    have htargets : ∀ arm ∈ alts.arms, arm.call.target.index < p0.blocks.size := fun arm harm =>
      hcalls arm.call (List.mem_append_left _ (List.mem_map_of_mem harm))
    obtain ⟨arms', w1, harms', hg1, harms⟩ := exists_handOffArms hderive hr htargets
    obtain ⟨default', w2, hdefault', hg2, hdefault⟩ := exists_handOffDefault hderive (hr.grown hg1)
      fun c hc => hcalls c (List.mem_append_right _ (Option.mem_toList.mpr hc))
    have hrelated : alts.Related (fun _ => Call.PassesOn (Copies p0 w2.program) xs) ⟨arms',
      default'⟩ :=
      ⟨harms.imp fun _ _ hxy => ⟨hxy.1, hxy.2.imp hg2.stays⟩, hdefault⟩
    refine ⟨.switch a ⟨arms', default'⟩, w2, ?_, hg1.trans hg2, .switch fun ctor c hsel => ?_⟩
    · exact bind_ok_iff.mpr ⟨arms', w1, harms',
        bind_ok_iff.mpr ⟨default', w2, hdefault', rfl⟩⟩
    · obtain ⟨-, c', hsel', hc, -⟩ := hrelated.select hsel
      exact ⟨c', hsel', hc⟩

theorem exists_handOffCode_copyFresh {code : Code} {m : Temps}
    (hcalls : ∀ c ∈ code.endCalls, c.target.index < p0.blocks.size)
    (hxs : ∀ x ∈ xs, x.isWildcard = false ∧ x.index < m.size) (s : Subst)
    (hm : m.size ≤ w.program.temps.size) : ∃ code' w',
      handOffCode h xs derive (code.copyFresh m s).1 w = .ok code' w' ∧
        Grown h p0 w.program w'.program ∧
      (code.copyFresh m s).1.PassesOn h (Copies p0 w'.program) xs code' := by
  refine exists_handOffCode hderive hr (fun c hc => ?_) (fun x hx hmem => ?_) fun x hx => ?_
  · have htarget := List.mem_map_of_mem (f := Call.target) hc
    rw [Code.endCalls_copyFresh] at htarget
    obtain ⟨c', hc', htarget⟩ := List.mem_map.mp htarget
    exact htarget ▸ hcalls c' hc'
  · have hle := Code.boundTemps_copyFresh (mem_named.mpr ⟨hmem, (hxs x hx).1⟩)
    exact Nat.not_lt_of_le hle (hxs x hx).2
  · exact lt_of_lt_of_le (hxs x hx).2 hm

end HandOff

theorem deriveHandoff_of_listed {b d : BlockId} {block copy : Block}
    (hblock : w.program.blocks[b.index]? = some block) (hd : block.derived = [d])
    (hcopy : w.program.blocks[d.index]? = some copy)
    (horigin : copy.origin = h.origin (block.origin.depth + 1)) (fuel : Nat) :
    deriveHandoff h (fuel + 1) b w = .ok d w := by
  have hfound : w.program.derivedBlock? block (· == h.origin (block.origin.depth + 1)) =
    some d := by
    simp [derivedBlock?, hd, hcopy, horigin]
  simp only [deriveHandoff, bind_ok_iff, look_eq_ok_iff, block_eq_ok_iff,
    get_ok_iff]
  refine ⟨block, w, ⟨hblock, rfl⟩, w, w, ⟨rfl, rfl⟩, ?_⟩
  simp only [hfound]
  rfl

theorem deriveHandoff_of_unlisted {b d : BlockId} {block new : Block} {own extras : List Temp}
    {copy code : Code} {subst : Subst} {p1 p2 p3 p4 : Program} {w' : Workbench}
    (hblock : w.program.blocks[b.index]? = some block) (hnone : block.derived = [])
    (hown : freshParams block.params w.program = .ok own p1)
    (hextras : freshN h.extras p1 = .ok extras p2)
    (hcopy : copyFresh block.code (({} : Subst).renameAll block.params own) p2 = .ok (copy, subst)
      p3)
    (hadd : addDerivedBlock b { Block.placeholder with
      params := own ++ extras, origin := h.origin (block.origin.depth + 1) } p3 = .ok d p4)
    (hcode : handOffCode h extras (deriveHandoff h fuel) copy { w with program := p4 } =
      .ok code w')
    (hnew : w'.program.blocks[d.index]? = some new) :
    deriveHandoff h (fuel + 1) b w =
      .ok d { w' with program := w'.program.setBlock d { new with code } } := by
  have hfound : w.program.derivedBlock? block (· == h.origin (block.origin.depth + 1)) = none := by
    simp [derivedBlock?, hnone]
  simp only [deriveHandoff, bind_ok_iff, look_eq_ok_iff, block_eq_ok_iff,
    get_ok_iff]
  refine ⟨block, w, ⟨hblock, rfl⟩, w, w, ⟨rfl, rfl⟩, ?_⟩
  simp only [hfound, bind_ok_iff, edit_eq_ok_iff, modifyBlock_eq_ok_iff]
  exact ⟨own, _, ⟨p1, hown, rfl⟩, extras, _, ⟨p2, hextras, rfl⟩, (copy, subst), _, ⟨p3, hcopy, rfl⟩,
    d, _, ⟨p4, hadd, rfl⟩, code, w', hcode, (), _, ⟨_, ⟨new, hnew, rfl⟩, rfl⟩, rfl⟩

/-- A block that lists no copy gets one, which hands on what a copy of its code returns. -/
theorem exists_deriveHandoff (hp0 : p0.JumpsDefined)
    (hderive : Completes h p0 fuel (deriveHandoff h fuel)) :
    Completes h p0 (fuel + 1) (deriveHandoff h (fuel + 1)) := by
  intro b w hr hb
  obtain ⟨block, hblock, derived0, hblock0⟩ := hr.family.exists_block hb
  obtain hnone | ⟨d, copy, hd, hcopy, horigin⟩ := hr.family.listed hb hblock
  · -- first its variables
    obtain ⟨own, p1, hown⟩ := exists_freshParams w.program block.params
    obtain ⟨m1, rfl, hfresh⟩ := freshParams_ok hown
    obtain ⟨extras, p2, hextras⟩ := exists_freshN { w.program with temps := m1 } h.extras
    obtain ⟨m2, rfl, hfresh', hlen, hle⟩ := freshN_ok hextras
    obtain ⟨⟨copy, subst⟩, p3, hcopy⟩ := exists_copyFresh { w.program with temps := m2 } block.code
      (({} : Subst).renameAll block.params own)
    obtain ⟨rfl, rfl⟩ := copyFresh_ok hcopy
    have hsize := block.code.size_copyFresh m2 (({} : Subst).renameAll block.params own)
    have hm1 := hfresh.le
    have hm2 := hfresh'.le
    simp only at hm1 hm2
    have hg1 := hr.family.withTemps (m := (block.code.copyFresh m2
      (({} : Subst).renameAll block.params own)).2.1) (by omega)
    -- then its place
    obtain ⟨d, p4, hadd⟩ := exists_addDerivedBlock { w.program with
        temps := (block.code.copyFresh m2 (({} : Subst).renameAll block.params own)).2.1 }
      (Array.getElem?_eq_some_iff.mp hblock).1 { Block.placeholder with
        params := own ++ extras, origin := h.origin (block.origin.depth + 1) }
    have htemps := temps_addDerivedBlock hadd
    have hr' : Ready h p0 fuel p4 := (hr.grown hg1).register hblock hnone hadd hb (by rfl)
    -- and at last its body, with the copies that it jumps to
    have hbounds : ∀ x ∈ extras, x.isWildcard = false ∧ x.index < m2.size := fun x hx =>
      have hx' := Temp.isWildcard_of_le (lt_of_lt_of_le hr.temps hm1) (hle x hx)
      ⟨hx', (hfresh'.bounds (mem_named.mpr ⟨hx, hx'⟩)).2⟩
    obtain ⟨code, w', hcode, hg, hpasses⟩ := exists_handOffCode_copyFresh
      (w := { w with program := p4 }) hderive hr' (hp0 (block_eq_ok_iff.mpr hblock0)) hbounds
      (({} : Subst).renameAll block.params own) (by simp only [htemps]; omega)
    obtain ⟨-, hplace, -⟩ := addDerivedBlock_ok hadd (Array.getElem?_eq_some_iff.mp hblock).1
    obtain ⟨derived, hmade⟩ := hg.keeps.block (block_eq_ok_iff.mp hplace)
    obtain ⟨hgrown, hcopies⟩ := hg1.family.complete hblock hnone hadd hb hg hmade
      (.of_copyFresh hr.temps hfresh hfresh' hlen hle rfl hpasses)
    exact ⟨d, _, deriveHandoff_of_unlisted hblock hnone hown hextras hcopy hadd hcode hmade,
      hg1.trans hgrown, hcopies⟩
  · exact ⟨d, w, deriveHandoff_of_listed hblock hd hcopy horigin fuel, hr.family.grown, hb, block,
      hblock, hd⟩

theorem deriveHandoff_completes (hp0 : p0.JumpsDefined) (fuel : Nat) :
    Completes h p0 fuel (deriveHandoff h fuel) := by
  induction fuel with
  | zero => exact fun b w hr _ => absurd hr.left (Nat.not_lt_zero _)
  | succ fuel ih => exact exists_deriveHandoff hp0 ih

theorem exists_handoffOf (h : Handoff) {b : BlockId} (htemps : 0 < w.program.temps.size)
    (hjumps : w.program.JumpsDefined) (hunderived : ∀ block ∈ w.program.blocks, block.derived = [])
    (hb : b.index < w.program.blocks.size) :
    ∃ d w', handoffOf h b w = .ok d w' ∧ w.program.Keeps w'.program ∧
      w'.program.PassesOn h (Copies w.program w'.program) ∧ Copies w.program w'.program b d := by
  have hnone {b : BlockId} {block : Block} (hblock : w.program.blocks[b.index]? = some block) :
      block.derived = [] := hunderived block (Array.mem_of_getElem? hblock)
  have hr : Ready h w.program (w.program.blocks.size + 1) w.program := by
    refine ⟨⟨.refl _, fun b block _ hblock => .inl (hnone hblock)⟩, htemps, Nat.lt_succ_of_le ?_⟩
    exact (Finset.card_filter_le _ _).trans_eq (Finset.card_range _)
  obtain ⟨d, w', hd, hg, hcopies⟩ := deriveHandoff_completes hjumps _ hr hb
  refine ⟨d, w', bind_ok_iff.mpr ⟨w, w, rfl, hd⟩, hg.keeps, fun b' d' hc => ?_, hcopies⟩
  obtain ⟨-, block, hblock, hlisted⟩ | ⟨-, hcompleted⟩ := hg.new hc
  · simp [hnone hblock] at hlisted
  · exact hcompleted

/-- Where no block lists a copy yet, the copy that hands a block's result on is made, and what was
there is kept. Given the arguments of the block and the values to hand over, it does what a caller
does that binds the result and then hands it over: unless that one fails, both end alike and leave
the same machine. -/
theorem handoffOf_faithful (h : Handoff) {b : BlockId} (htemps : 0 < w.program.temps.size)
    (hchecked : ∀ d ∈ w.program.allDefns, w.program.checkDefn d = .ok ())
    (hunderived : ∀ block ∈ w.program.blocks, block.derived = [])
    (hb : b.index < w.program.blocks.size) :
    ∃ d w', handoffOf h b w = .ok d w' ∧ w.program.Keeps w'.program ∧
      ∀ (limit depth idle : Nat) (env : Env) (args : List Atom) (xs : List Temp)
      (given : List Value)
        (v : Temp) (s : Machine), given.length = h.extras → xs.map env.lookup = given.map some →
        v.isWildcard = false → v ∉ xs →
        (∀ e s', Run.evalCode w'.program limit depth (idle + 1) env
          (.bind [v] (.call ⟨b, args⟩) (.done (h.tail xs v))) s ≠ .error (.failed e) s') →
        Run.evalCode w'.program limit depth (idle + 1) env (.jump ⟨d, args ++ xs.map .temp⟩) s =
          Run.evalCode w'.program limit depth (idle + 1) env
            (.bind [v] (.call ⟨b, args⟩) (.done (h.tail xs v))) s := by
  have hjumps := jumpsDefined_of_checked hchecked
  obtain ⟨d, w', hd, hkeeps, hpasses, hcopies⟩ := exists_handoffOf h htemps hjumps hunderived hb
  refine ⟨d, w', hd, hkeeps, fun limit depth idle env args xs given v s hgiven hxs hv hnew hs => ?_⟩
  exact (Run.evalCode_handoff hpasses hcopies hgiven hxs hv hnew depth idle args).evalCode_eq hs

/-- Two blocks that call each other in turn, until a count is zero, and print the count on the way;
and a closure that prints what it is entered with. -/
def alternating : Workbench where
  program :=
    { temps := ⟨.replicate 9 none⟩
      blocks := #[
        { params := [⟨1⟩]
          code := .bind [⟨2⟩] (.prim .eq [.temp ⟨1⟩, .word 0])
            (.branch (.temp ⟨2⟩) ⟨⟨2⟩, []⟩ ⟨⟨1⟩, [.temp ⟨1⟩]⟩) },
        { params := [⟨3⟩]
          code := .bind [] (.prim .print [.temp ⟨3⟩])
            (.bind [⟨4⟩] (.prim .sub [.temp ⟨3⟩, .word 1]) (.jump ⟨⟨0⟩, [.temp ⟨4⟩]⟩)) },
        { params := [], code := .done (.ret [.word 7]) }]
      closures := #[{ stored := [], params := [⟨5⟩], tail := .prim .print [.temp ⟨5⟩] }] }

def prints (p : Program) (env : Env) (code : Code) (output : Array Observed) : Bool :=
  match Run.evalCode p 20 2 1 env code {} with
  | .ok _ s => s.output == output
  | .error .. => false

theorem exists_of_prints {p : Program} {env : Env} {code : Code} {output : Array Observed}
    (h : prints p env code output = true) :
    ∃ vs s, Run.evalCode p 20 2 1 env code {} = .ok vs s ∧ s.output = output := by
  unfold prints at h
  split at h
  case h_1 vs s hrun => exact ⟨vs, s, hrun, eq_of_beq h⟩
  case h_2 => cases h

theorem handoffOf_faithful_alternating :
    ∃ d w', handoffOf .continuation ⟨0⟩ alternating = .ok d w' ∧
      ∃ vs s, s.output = #[.word 2, .word 1, .word 7] ∧
        Run.evalCode w'.program 20 2 1 [(⟨6⟩, .closure ⟨0⟩ [])]
          (.bind [⟨7⟩] (.call ⟨⟨0⟩, [.word 2]⟩) (.done (.enter (.temp ⟨6⟩) [.temp ⟨7⟩])))
          {} = .ok vs s ∧
        Run.evalCode w'.program 20 2 1 [(⟨6⟩, .closure ⟨0⟩ [])]
          (.jump ⟨d, [.word 2, .temp ⟨6⟩]⟩) {} = .ok vs s := by
  obtain ⟨d, w', hd, -, hruns⟩ := handoffOf_faithful .continuation (w := alternating) (b := ⟨0⟩)
    (by decide) (by decide +kernel) (by decide) (by decide)
  obtain ⟨d', w'', hd', hprints⟩ := exists_ok (r := handoffOf .continuation ⟨0⟩ alternating)
    (fun _ w' => prints w'.program [(⟨6⟩, .closure ⟨0⟩ [])]
      (.bind [⟨7⟩] (.call ⟨⟨0⟩, [.word 2]⟩) (.done (.enter (.temp ⟨6⟩) [.temp ⟨7⟩])))
      #[.word 2, .word 1, .word 7]) (by decide +kernel)
  obtain ⟨rfl, rfl⟩ := EStateM.Result.ok.inj (hd.symm.trans hd')
  obtain ⟨vs, s, hrun, houtput⟩ := exists_of_prints hprints
  refine ⟨d, w', hd, vs, s, houtput, hrun, ?_⟩
  refine (hruns 20 2 0 _ [.word 2] [⟨6⟩] [.closure ⟨0⟩ []] ⟨7⟩ {} rfl rfl rfl (by decide) ?_).trans
    hrun
  simp [Handoff.tail, hrun]

end Pass

end MonadicIR
