import MonadicIR.Proofs.Heights

namespace MonadicIR

open Edit Pass Program

namespace Program

variable {k : Handoff} {p q : Program} {b d : BlockId} {block new : Block}

def ListsHandoff (p : Program) (k : Handoff) (b : BlockId) : Prop :=
  ∃ block d copy, p.blocks[b.index]? = some block ∧ d ∈ block.derived ∧
    p.blocks[d.index]? = some copy ∧ copy.origin = k.origin (block.origin.depth + 1)

theorem not_listsHandoff (hblock : p.blocks[b.index]? = some block)
    (hnone : p.derivedBlock? block (· == k.origin (block.origin.depth + 1)) = none) :
    ¬p.ListsHandoff k b := by
  rintro ⟨block', d, copy, hblock', hd, hcopy, horigin⟩
  obtain rfl := Option.mem_unique hblock hblock'
  have hunfit := List.find?_eq_none.mp hnone d hd
  simp [hcopy, horigin] at hunfit

/-- Blocks keep their origins and all copies that they list. -/
def ListsMore (p q : Program) : Prop := ∀ (b : BlockId) block, p.blocks[b.index]? = some block →
  ∃ block', q.blocks[b.index]? = some block' ∧ block'.origin = block.origin ∧
    block.derived ⊆ block'.derived

theorem ListsHandoff.mono (hb : p.ListsHandoff k b) (hpq : p.ListsMore q) : q.ListsHandoff k b := by
  obtain ⟨block, d, copy, hblock, hd, hcopy, horigin⟩ := hb
  obtain ⟨block', hblock', horigin', hderived⟩ := hpq b block hblock
  obtain ⟨copy', hcopy', hcopied, -⟩ := hpq d copy hcopy
  exact ⟨block', d, copy', hblock', hderived hd, hcopy', by rw [hcopied, horigin, horigin']⟩

theorem listsMore_setCode (hblock : p.blocks[b.index]? = some block) (code : Code) :
    p.ListsMore (p.setBlock b { block with code }) := by
  intro x old hold
  rw [getElem?_setBlock hblock]
  split
  · rename_i hxb
    subst hxb
    obtain rfl := Option.mem_unique hblock hold
    exact ⟨_, rfl, rfl, List.Subset.refl _⟩
  · exact ⟨old, hold, rfl, List.Subset.refl _⟩

section Register

variable (hblock : p.blocks[b.index]? = some block) (hadd : Edit.addDerivedBlock b new p = .ok d q)
include hblock hadd

theorem listsMore_register : p.ListsMore q := by
  intro x old hold
  have hlookup := getElem?_addDerivedBlock hadd hblock x
  obtain ⟨rfl, -, -⟩ := addDerivedBlock_ok hadd (Array.getElem?_eq_some_iff.mp hblock).1
  have hne : x ≠ ⟨p.blocks.size⟩ := by
    rintro rfl
    exact Nat.lt_irrefl _ (Array.getElem?_eq_some_iff.mp hold).1
  rw [if_neg hne] at hlookup
  split at hlookup
  · rename_i hxb
    subst hxb
    obtain rfl := Option.mem_unique hblock hold
    exact ⟨_, hlookup, rfl, List.subset_append_left ..⟩
  · exact ⟨old, hlookup.trans hold, rfl, List.Subset.refl _⟩

theorem listsHandoff_register (horigin : new.origin = k.origin (block.origin.depth + 1)) :
    q.ListsHandoff k b := by
  have hlookup := getElem?_addDerivedBlock hadd hblock b
  rw [if_pos rfl] at hlookup
  obtain ⟨-, hd, -⟩ := addDerivedBlock_ok hadd (Array.getElem?_eq_some_iff.mp hblock).1
  exact ⟨_, d, new, hlookup, by simp, block_eq_ok_iff.mp hd, horigin⟩

end Register

open Classical in
/-- Those of the blocks that list no copy of this kind. -/
noncomputable def uncopied (p : Program) (k : Handoff) (sources : Finset BlockId) :
    Finset BlockId :=
  sources.filter fun b => ¬p.ListsHandoff k b

variable {sources : Finset BlockId}

theorem mem_uncopied : b ∈ p.uncopied k sources ↔ b ∈ sources ∧ ¬p.ListsHandoff k b := by
  simp [uncopied]

theorem uncopied_subset (hpq : p.ListsMore q) : q.uncopied k sources ⊆ p.uncopied k sources := by
  intro b hb
  obtain ⟨hb, hunlisted⟩ := mem_uncopied.mp hb
  exact mem_uncopied.mpr ⟨hb, fun h => hunlisted (h.mono hpq)⟩

theorem card_uncopied_lt (hpq : p.ListsMore q) (hb : b ∈ sources) (hp : ¬p.ListsHandoff k b)
    (hq : q.ListsHandoff k b) : (q.uncopied k sources).card < (p.uncopied k sources).card := by
  refine Finset.card_lt_card (Finset.ssubset_iff_of_subset (uncopied_subset hpq) |>.mpr ⟨b, ?_, ?_⟩)
  · exact mem_uncopied.mpr ⟨hb, hp⟩
  · exact fun h => (mem_uncopied.mp h).2 hq

end Program

/-- Heights, and how many blocks may still be copied. -/
structure Drafts where
  heights : Heights
  left : Nat

namespace Drafts

instance : Preorder Drafts where
  le w w' := w.heights ≤ w'.heights ∧ w'.left ≤ w.left
  le_refl w := ⟨le_refl _, Nat.le_refl _⟩
  le_trans _ _ _ h h' := ⟨h.1.trans h'.1, h'.2.trans h.2⟩

/-- The blocks to copy end in calls of each other, and there are not more of them left than said. -/
structure Holds (start : Program) (todo : Set BlockId) (k : Handoff) (sources : Finset BlockId)
    (w : Drafts) (p : Program) : Prop where
  holds : w.heights.Holds start todo p
  closed : ∀ b ∈ sources, w.heights.Known b ∧ ∃ block, p.blocks[b.index]? = some block ∧
    ∀ c ∈ block.code.endCalls, c.target ∈ sources
  left : (p.uncopied k sources).card ≤ w.left

variable {start : Program} {todo : Set BlockId} {k : Handoff} {sources : Finset BlockId}
  {w : Drafts} {p q : Program} {b d : BlockId} {h : Height} {block new : Block} {code : Code}

theorem Holds.withTemps (hp : w.Holds start todo k sources p) (m : Temps) :
    w.Holds start todo k sources { p with temps := m } :=
  ⟨hp.holds.congr rfl rfl rfl, hp.closed, hp.left⟩

theorem Holds.setCode (hp : w.Holds start todo k sources p)
    (hblock : p.blocks[d.index]? = some block)
    (hh : w.heights.of d = some h) (hcode : w.heights.Admits start h code) (hd : d ∉ sources)
    (htodo : d ∉ todo) : w.Holds start todo k sources (p.setBlock d { block with code }) where
  holds := by
    have hholds := hp.holds.setCode hblock hh hcode
    rwa [Set.sdiff_singleton_eq_self htodo] at hholds
  closed b hb := by
    obtain ⟨hknown, source, hsource, hcalls⟩ := hp.closed b hb
    have hne : b ≠ d := fun heq => hd (heq ▸ hb)
    exact ⟨hknown, source, by rw [getElem?_setBlock hblock, if_neg hne, hsource], hcalls⟩
  left := (Finset.card_le_card (uncopied_subset (listsMore_setCode hblock code))).trans hp.left

theorem Holds.register (hp : w.Holds start todo k sources p) (hb : b ∈ sources)
    (hh : w.heights.of b = some h) (hblock : p.blocks[b.index]? = some block)
    (hunlisted : ¬p.ListsHandoff k b) (hadd : addDerivedBlock b new p = .ok d q)
    (hcode : new.code = Block.placeholder.code) (hderived : new.derived = [])
    (horigin : new.origin = k.origin (block.origin.depth + 1)) :
    ∃ w' : Drafts, w ≤ w' ∧ w'.left < w.left ∧ w'.Holds start todo k sources q ∧
      w'.heights.of d = some h.copy ∧ d ∉ sources ∧ d ∉ todo := by
  obtain ⟨hnew, hholds⟩ := hp.holds.register hh hcode hderived hadd
  have hmore := listsMore_register hblock hadd
  have hcard := card_uncopied_lt hmore hb hunlisted (listsHandoff_register hblock hadd horigin)
  have hleft := lt_of_lt_of_le hcard hp.left
  have hle := Heights.le_add (h := h.copy) hnew
  have hunknown : ¬w.heights.Known d := by
    rintro ⟨l, hl, -⟩
    rw [hnew] at hl
    cases hl
  refine ⟨⟨w.heights.add d h.copy, _⟩, ⟨hle, hleft.le⟩, hleft, ⟨hholds, fun x hx => ?_, le_rfl⟩,
    Heights.of_add_self, fun hd => hunknown (hp.closed d hd).1, fun hd =>
      hunknown (hp.holds.known d hd)⟩
  obtain ⟨hknown, source, hsource, hcalls⟩ := hp.closed x hx
  have hlookup := getElem?_addDerivedBlock hadd hblock x
  have hne : x ≠ d := fun heq => hunknown (heq ▸ hknown)
  rw [if_neg hne] at hlookup
  refine ⟨hknown.mono hle, ?_⟩
  split at hlookup
  · rename_i hxb
    subst hxb
    obtain rfl := Option.mem_unique hblock hsource
    exact ⟨_, hlookup, hcalls⟩
  · exact ⟨source, hlookup.trans hsource, hcalls⟩

section HandOff

variable {extras : List Temp} {derive : BlockId → Pass BlockId}

def Copies (start : Program) (todo : Set BlockId) (k : Handoff) (sources : Finset BlockId)
    (w : Drafts) (derive : BlockId → Pass BlockId) : Prop :=
  ∀ w' b h, w ≤ w' → b ∈ sources → w'.heights.of b = some h →
    Pass.SettlesIn (Holds start todo k sources) w' (fun _ => derive b)
      fun w'' d => w''.heights.of d = some h.copy

section

variable (hderive : Copies start todo k sources w derive)

include hderive

theorem Copies.mono {w' : Drafts} (hle : w ≤ w') :
    Copies start todo k sources w' derive := fun w1 b h hle1 => hderive w1 b h (hle.trans hle1)

/-- What holds of the heights of sources holds of copies, if it holds of all copied heights. -/
theorem settles_handOffCall {P P' : Height → Prop} (hP : ∀ h, P h → P' h.copy) {c : Call}
    (hc : w.heights.At P c.target) (hsource : c.target ∈ sources) :
    SettlesIn (Holds start todo k sources) w (fun _ => handOffCall extras derive c)
      fun w' c' => w'.heights.At P' c'.target := by
  obtain ⟨h, hh, hPh⟩ := hc
  unfold handOffCall
  exact .bind (hderive w c.target h (le_refl w) hsource hh) fun w1 d _ hd =>
    .pure ⟨h.copy, hd, hP h hPh⟩

theorem settles_handOffCall_known {c : Call} (hc : w.heights.Known c.target)
    (hsource : c.target ∈ sources) :
    SettlesIn (Holds start todo k sources) w (fun _ => handOffCall extras derive c)
      fun w' c' => w'.heights.Known c'.target :=
  settles_handOffCall hderive (fun _ _ => trivial) hc hsource

theorem settles_handOffArms {arms : List Arm}
    (hknown : ∀ arm ∈ arms, w.heights.Known arm.call.target)
    (hsources : ∀ arm ∈ arms, arm.call.target ∈ sources) :
    SettlesIn (Holds start todo k sources) w (fun _ => handOffArms extras derive arms)
      fun w' arms' => ∀ arm ∈ arms', w'.heights.Known arm.call.target := by
  induction arms generalizing w with
  | nil => exact .pure fun _ h => by cases h
  | cons arm arms ih =>
    obtain ⟨harm, hknown⟩ := List.forall_mem_cons.mp hknown
    obtain ⟨hsource, hsources⟩ := List.forall_mem_cons.mp hsources
    unfold handOffArms
    refine .bind (settles_handOffCall_known hderive harm hsource) fun w1 c hle1 hc => ?_
    refine .bind (ih (hderive.mono hle1) (fun a ha => (hknown a ha).mono hle1.1) hsources)
      fun w2 arms' hle2 harms' => .pure ?_
    exact List.forall_mem_cons.mpr ⟨hc.mono hle2.1, harms'⟩

theorem settles_handOffDefault {default : Option Call}
    (hknown : ∀ c, default = some c → w.heights.Known c.target)
    (hsources : ∀ c, default = some c → c.target ∈ sources) :
    SettlesIn (Holds start todo k sources) w (fun _ => handOffDefault extras derive default)
      fun w' d => ∀ c, d = some c → w'.heights.Known c.target := by
  cases default with
  | none => exact .pure fun _ h => by cases h
  | some c =>
    refine .bind (settles_handOffCall_known hderive (hknown c rfl) (hsources c rfl))
      fun w1 c' _ hc' => .pure fun d hd => ?_
    exact Option.some.inj hd ▸ hc'

theorem settles_handOffCode
    (hcode : code.CallsTo (w.heights.At (h.Ends start.recursiveAt))
      (w.heights.At (h.Ends start.recursiveAt)) w.heights.Known)
    (hsources : ∀ c ∈ code.endCalls, c.target ∈ sources) :
    SettlesIn (Holds start todo k sources) w (fun _ => handOffCode k extras derive code)
      fun w' code' => w'.heights.Admits start h.copy code' := by
  induction code generalizing w with
  | bind vars t rest ih =>
    unfold handOffCode
    refine .bind (ih hderive hcode.2 hsources) fun w1 rest' hle1 hrest' => .pure ⟨fun c hc => ?_,
      hrest'⟩
    exact (hcode.1 c hc).imp hle1.1 fun _ => Height.Ends.waits_copy
  | assert a ctor rest ih =>
    unfold handOffCode
    exact .bind (ih hderive hcode hsources) fun w1 rest' _ hrest' =>
      .pure (show Heights.Admits .. from hrest')
  | done t =>
    have hother (ht : t.call? = none) : SettlesIn (Holds start todo k sources) w (fun _ => do
          if t.blackholes || (← Pass.look (·.tailNeverReturns t)) then return Code.done t
          let v ← Pass.edit fresh
          return .bind [v] t (.done (k.tail extras v)))
        fun w' code' => w'.heights.Admits start h.copy code' := by
      have hnone (P : BlockId → Prop) : t.CallsTo P := by simp [Tail.CallsTo, ht]
      refine .bind (.peek _) fun w1 never _ _ => .ite (fun _ => .pure (hnone _)) fun _ => ?_
      refine .bind (Q := fun _ _ => True) (.edit fun p v p' hp hv => ?_) fun w2 v _ _ =>
        .pure ⟨hnone _, ?_⟩
      · obtain ⟨-, m, rfl, -⟩ := fresh_ok hv
        exact ⟨w1, le_refl _, hp.withTemps m, trivial⟩
      · cases k <;> simp [Handoff.tail, Code.CallsTo, Tail.CallsTo, Tail.call?]
    cases t with
    | call c =>
      exact .bind (settles_handOffCall hderive (fun _ => Height.Ends.copy) (hcode c rfl)
        (hsources c (List.mem_singleton.mpr rfl))) fun w1 c' _ hc' => .pure fun d hd =>
          Option.some.inj hd ▸ hc'
    | ret _ | enter _ _ | data _ _ | closure _ _ | sel _ _ _ | prim _ _ => exact hother rfl
  | branch test yes no =>
    obtain ⟨hyes, hno⟩ := List.forall_mem_cons.mp hsources
    unfold handOffCode
    refine .bind (settles_handOffCall_known hderive hcode.1 hyes) fun w1 yes' hle1 hyes' => ?_
    refine .bind (settles_handOffCall_known (hderive.mono hle1) (hcode.2.mono hle1.1)
      (hno no (List.mem_singleton.mpr rfl))) fun w2 no' hle2 hno' => .pure ?_
    exact ⟨hyes'.mono hle2.1, hno'⟩
  | switch a alts =>
    obtain ⟨harms, hdefault⟩ := Alts.forall_mem_calls.mp hcode
    obtain ⟨harms', hdefault'⟩ := Alts.forall_mem_calls.mp hsources
    unfold handOffCode
    refine .bind (settles_handOffArms hderive harms harms') fun w1 arms hle1 harms1 => ?_
    refine .bind (settles_handOffDefault (hderive.mono hle1)
      (fun c hc => (hdefault c hc).mono hle1.1) hdefault') fun w2 default hle2 hdefault2 => .pure ?_
    exact Alts.forall_mem_calls.mpr ⟨fun arm harm => (harms1 arm harm).mono hle2.1, hdefault2⟩

theorem settles_fillCopy (hh : w.heights.of d = some h.copy) (hd : d ∉ sources) (htodo : d ∉ todo)
    {m : Temps} {s : Subst}
    (hcode : code.CallsTo (w.heights.At (h.Ends start.recursiveAt))
      (w.heights.At (h.Ends start.recursiveAt)) w.heights.Known)
    (hsources : ∀ c ∈ code.endCalls, c.target ∈ sources) :
    SettlesIn (Holds start todo k sources) w (fun _ => do
        let body ← handOffCode k extras derive (code.copyFresh m s).1
        Pass.edit (modifyBlock d fun block => { block with code := body })
        return d)
      fun w' d' => w'.heights.of d' = some h.copy := by
  have hends : ∀ c ∈ (code.copyFresh m s).1.endCalls, c.target ∈ sources := by
    intro c hc
    have htarget := List.mem_map_of_mem (f := Call.target) hc
    rw [Code.endCalls_copyFresh] at htarget
    obtain ⟨c', hc', htarget⟩ := List.mem_map.mp htarget
    exact htarget ▸ hsources c' hc'
  refine .bind (settles_handOffCode hderive (Code.callsTo_copyFresh hcode) hends)
    fun w1 body hle1 hbody => ?_
  have hh1 := hle1.1 d _ hh
  refine .bind (Q := fun w' _ => w'.heights.of d = some h.copy) (.edit fun p u q hp hq => ?_)
    fun w2 _ _ hd2 => .pure hd2
  obtain ⟨made, hmade, rfl⟩ := modifyBlock_eq_ok_iff.mp hq
  exact ⟨w1, le_refl w1, hp.setCode hmade hh1 hbody hd htodo, hh1⟩

end

theorem settles_deriveHandoff (fuel : Nat) (hleft : w.left < fuel) :
    Copies start todo k sources w (deriveHandoff k fuel) := by
  induction fuel generalizing w with
  | zero => exact absurd hleft (Nat.not_lt_zero _)
  | succ fuel ih =>
    intro w0 b h hle hb hh
    have hleft0 : w0.left < fuel + 1 := lt_of_le_of_lt hle.2 hleft
    refine Settles.of_program fun p hp => ?_
    unfold deriveHandoff
    refine .look_bind fun block hblock => .get_bind fun s hs => ?_
    rw [block_eq_ok_iff] at hblock
    have hfits := hp.holds.fits_of hh hblock
    rw [hs]
    cases hfound : p.derivedBlock? block (· == k.origin (block.origin.depth + 1)) with
    | some d =>
      obtain ⟨hd, -⟩ := derivedBlock?_eq_some hfound
      exact .pure fun q hq => ⟨w0, le_refl w0, hq ▸ hp, hfits.derived d hd⟩
    | none =>
      obtain ⟨-, block', hblock', hsources⟩ := hp.closed b hb
      obtain rfl := Option.mem_unique hblock hblock'
      have hunlisted := not_listsHandoff hblock hfound
      -- nothing but variables is made before the copy is listed
      refine .bind (.edit (Q := fun _ q => ∃ m, q = { p with temps := m }) fun q own q' hq hown =>
        ?_)
        fun own => ?_
      · obtain ⟨m, rfl, -⟩ := freshParams_ok hown
        exact ⟨m, by rw [hq]⟩
      refine .bind (.edit (Q := fun _ q => ∃ m, q = { p with temps := m })
        fun q extras q' hq hextras => ?_)
        fun extras => ?_
      · obtain ⟨m, rfl⟩ := hq
        obtain ⟨m', rfl, -⟩ := freshN_ok hextras
        exact ⟨m', rfl⟩
      refine .bind (.edit (Q := fun copy q => (∃ m s, copy.1 = (block.code.copyFresh m s).1) ∧
        ∃ m, q = { p with temps := m }) fun q copy q' hq hcopy => ?_) fun copy => ?_
      · obtain ⟨m, rfl⟩ := hq
        obtain ⟨code, σ⟩ := copy
        obtain ⟨rfl, rfl⟩ := copyFresh_ok hcopy
        exact ⟨⟨_, _, rfl⟩, _, rfl⟩
      refine .bind (.edit (Q := fun d q => (∃ m s, copy.1 = (block.code.copyFresh m s).1) ∧
        ∃ w' : Drafts, w0 ≤ w' ∧ w'.left < w0.left ∧ w'.Holds start todo k sources q ∧
          w'.heights.of d = some h.copy ∧ d ∉ sources ∧ d ∉ todo) fun q d q' hq hadd =>
            ?_) fun d s hs => ?_
      · obtain ⟨hcode, m, rfl⟩ := hq
        exact ⟨hcode, (hp.withTemps m).register hb hh hblock hunlisted hadd rfl rfl rfl⟩
      obtain ⟨⟨m, σ, hcopy⟩, w1, hle1, hleft1, hw1, hd, hsource, htodo⟩ := hs
      rw [hcopy]
      exact (settles_fillCopy (ih (by omega)) hd hsource htodo (hfits.mono hle1.1).calls
        hsources).later hle1 s hw1

end HandOff

end Drafts

namespace Heights

variable {start : Program} {todo : Set BlockId} {w : Heights} {b : BlockId} {h : Height}

open Classical in
theorem settles_handoffOf (k : Handoff) (hh : w.of b = some h) :
    Pass.SettlesIn (Holds start todo) w (fun _ => Pass.handoffOf k b)
      fun w' d => w'.of d = some h.copy := by
  refine Pass.Settles.of_program fun p hp => ?_
  unfold Pass.handoffOf
  refine .get_bind fun s hs => ?_
  rw [hs]
  -- to be copied are all blocks with a height, as these end in calls of each other
  let sources := ((Finset.range p.blocks.size).image BlockId.mk).filter w.Known
  have hmem {x : BlockId} (hx : w.Known x) : x ∈ sources := Finset.mem_filter.mpr
    ⟨Finset.mem_image.mpr ⟨x.index, Finset.mem_range.mpr (hp.index_lt hx), rfl⟩, hx⟩
  have hclosed : ∀ x ∈ sources, w.Known x ∧ ∃ block, p.blocks[x.index]? = some block ∧
      ∀ c ∈ block.code.endCalls, c.target ∈ sources := by
    intro x hx
    obtain ⟨l, hl, -⟩ := (Finset.mem_filter.mp hx).2
    obtain ⟨block, hblock, hfits⟩ := hp.fits x l hl
    exact ⟨⟨l, hl, trivial⟩, block, hblock, fun c hc =>
      hmem (hfits.calls.endCalls (fun _ => At.known) c hc)⟩
  have hcard : (p.uncopied k sources).card < p.blocks.size + 1 := Nat.lt_succ_of_le <| calc
    (p.uncopied k sources).card ≤ sources.card := Finset.card_filter_le ..
    _ ≤ ((Finset.range p.blocks.size).image BlockId.mk).card := Finset.card_filter_le ..
    _ ≤ (Finset.range p.blocks.size).card := Finset.card_image_le
    _ = p.blocks.size := Finset.card_range _
  let first : Drafts := ⟨w, (p.uncopied k sources).card⟩
  have hholds : first.Holds start todo k sources p := ⟨hp, hclosed, Nat.le_refl _⟩
  have hcopies : Drafts.Copies start todo k sources first _ :=
    Drafts.settles_deriveHandoff (p.blocks.size + 1) hcard
  refine Pass.Settles.imp (hcopies first b h (le_refl first) (hmem ⟨h, hh, trivial⟩) hh)
    (fun q hq => hq ▸ hholds) fun d q hlater => ?_
  obtain ⟨w', hle, hw', hd⟩ := hlater
  exact ⟨w'.heights, hle.1, hw'.holds, hd⟩

end Heights

end MonadicIR
