import MonadicIR.Proofs.HandoffsEnd
import MonadicIR.Proofs.Pushing

namespace MonadicIR

open Pass

/-- What holds of the target of a call still holds when blocks that only pass control on are left
out. -/
theorem Program.target_followGotos {p : Program} {P : BlockId → Prop}
    (hstep : ∀ b block next, P b → p.blocks[b.index]? = some block → block.code = .done
      (.call next) →
      P next.target) {fuel : Nat} {visited : List BlockId} {c d : Call} (hc : P c.target)
    (h : p.followGotos fuel visited c = .ok d) : P d.target := by
  induction fuel generalizing visited c with
  | zero =>
    cases h
    exact hc
  | succ fuel ih =>
    obtain ⟨block, hblock, h⟩ := bind_eq_ok_iff.mp h
    rw [block_eq_ok_iff] at hblock
    split at h
    · rename_i next hnext
      split at h
      · obtain ⟨s, -, h⟩ := bind_eq_ok_iff.mp h
        exact ih (c := next.apply s) (hstep c.target block next hc hblock hnext) h
      · cases h
        exact hc
    · cases h
      exact hc

namespace Heights

variable {start : Program} {todo : Set BlockId} {w w' : Heights} {h m : Height} {b : BlockId}
  {c : Call}
  {code : Code}

def weigh (w : Heights) (extra : Nat) (b : BlockId) :
    Nat ×ₗ Nat := ((w.of b).getD .loose).weight extra

theorem weigh_of (hh : w.of b = some h) (extra : Nat) : w.weigh extra b = h.weight extra := by
  rw [weigh, hh, Option.getD_some]

theorem At.weigh_eq {P : Height → Prop} (hb : w.At P b) (hle : w ≤ w') (extra : Nat) :
    w'.weigh extra b = w.weigh extra b := by
  obtain ⟨h, hh, -⟩ := hb
  rw [weigh_of hh, weigh_of (hle b h hh)]

def load (w : Heights) (code : Code) : Multiset (Nat ×ₗ Nat) := code.load (w.weigh 1) (w.weigh 0)

theorem Admits.load_eq (hcode : Admits start w h code) (hle : w ≤ w') :
    w'.load code = w.load code :=
  Code.CallsTo.load_congr hcode (fun _ hb => hb.weigh_eq hle 1) fun _ hb => hb.weigh_eq hle 0

theorem load_bind_call (w : Heights) (vars : List Temp) (c : Call) (rest : Code) :
    w.load (.bind vars (.call c) rest) = {w.weigh 1 c.target} + w.load rest := rfl

theorem load_jump (w : Heights) (c : Call) : w.load (.jump c) = {w.weigh 0 c.target} := rfl

/-- Inlining came to this code, which is lighter than what there was. -/
def Improves (start : Program) (h : Height) (all : Multiset (Nat ×ₗ Nat)) (w : Heights)
    (r : Option Code) : Prop :=
  ∀ code, r = some code → Admits start w h code ∧ (w.load code).IsDershowitzMannaLT all

variable {all : Multiset (Nat ×ₗ Nat)}

theorem improves_none : Improves start h all w none := fun _ hr => by cases hr

theorem improves_some (hcode : Admits start w h code)
    (hload : (w.load code).IsDershowitzMannaLT all) :
    Improves start h all w (some code) := fun _ hr => Option.some.inj hr ▸ ⟨hcode, hload⟩

/-- A block at this height may be worked on: blocks that it may end in, and that inlining has yet to
come to, have a rank or are recursive. -/
structure Ready (start : Program) (todo : Set BlockId) (w : Heights) (h : Height) : Prop where
  bounded : h ≠ .loose
  known : ∀ b ∈ todo, w.Known b
  recursive : ∀ b ∈ todo, ∀ i, w.of b = some (.endless i) → h.Ends start.recursiveAt (.endless i) →
    start.recursiveAt i = true

theorem Ready.mono (hready : Ready start todo w h) (hle : w ≤ w') : Ready start todo w' h where
  bounded := hready.bounded
  known b hb := (hready.known b hb).mono hle
  recursive b hb i hi hends := by
    obtain ⟨l, hl, -⟩ := hready.known b hb
    obtain rfl := Option.some.inj ((hle b l hl).symm.trans hi)
    exact hready.recursive b hb i hl hends

theorem settles_bypassGoto {P : Height → Prop} (hP : ∀ m t, P m → m.Ends start.recursiveAt t → P t)
    (hc : w.At P c.target) : SettlesIn (Holds start todo) w (fun _ => bypassGoto c)
      fun w' d => ∀ c', d = some c' → w'.At P c'.target := by
  unfold bypassGoto
  refine .bind (.look (Q := fun w' d => w'.At P d.target) fun p d hp hd => ?_) fun w1 d hle1 hd =>
    .ite (fun _ => .pure fun _ h => by cases h) fun _ => .report_pure fun w2 hle2 c' hc' => ?_
  · refine Program.target_followGotos (fun b block next hb hblock hcode => ?_) hc hd
    obtain ⟨m, hm, hPm⟩ := hb
    have hcalls := (hp.fits_of hm hblock).calls
    rw [hcode] at hcalls
    exact (hcalls next rfl).imp (le_refl w) fun t => hP m t hPm
  · exact Option.some.inj hc' ▸ hd.mono hle2

theorem settles_bypassed {P : Height → Prop} (hP : ∀ m t, P m → m.Ends start.recursiveAt t → P t)
    (hc : w.At P c.target) : SettlesIn (Holds start todo) w (fun _ => bypassed c)
      fun w' c' => w'.At P c'.target := by
  unfold bypassed
  refine .bind (settles_bypassGoto hP hc) fun w1 d hle1 hd => .pure ?_
  cases d with
  | none => exact hc.mono hle1
  | some c' => exact hd c' rfl

theorem settles_bypassed_known (hc : w.Known c.target) :
    SettlesIn (Holds start todo) w (fun _ => bypassed c) fun w' c' => w'.Known c'.target :=
  settles_bypassed (fun _ _ _ _ => trivial) hc

theorem settles_bypassArms {arms : List Arm} (harms : ∀ arm ∈ arms, w.Known arm.call.target) :
    SettlesIn (Holds start todo) w (fun _ => bypassArms arms)
      fun w' arms' => ∀ arm ∈ arms', w'.Known arm.call.target := by
  induction arms generalizing w with
  | nil => exact .pure fun _ h => by cases h
  | cons arm arms ih =>
    obtain ⟨harm, harms⟩ := List.forall_mem_cons.mp harms
    unfold bypassArms
    refine .bind (settles_bypassed_known harm) fun w1 c' hle1 hc' => ?_
    refine .bind (ih fun a ha => (harms a ha).mono hle1) fun w2 arms' hle2 harms' => .pure ?_
    exact List.forall_mem_cons.mpr ⟨hc'.mono hle2, harms'⟩

theorem settles_bypassDefault {default : Option Call}
    (hdefault : ∀ c, default = some c → w.Known c.target) :
    SettlesIn (Holds start todo) w (fun _ => bypassDefault default)
      fun w' d => ∀ c, d = some c → w'.Known c.target := by
  cases default with
  | none => exact .pure fun _ h => by cases h
  | some c =>
    refine .bind (settles_bypassed_known (hdefault c rfl)) fun w1 c' _ hc' => .pure fun d hd => ?_
    exact Option.some.inj hd ▸ hc'

variable (o : Options) (src : BlockId) {vars : List Temp} {rest : Code}

theorem settles_instantiate {R : Code → Prop} (hm : w.of c.target = some m)
    (hR : ∀ block, Fits start todo w c.target m block → ∀ t s, R (block.code.copyFresh t s).1) :
    SettlesIn (Holds start todo) w (fun _ => instantiate c) fun _ body => R body := by
  unfold instantiate
  refine .bind (.look (Q := fun _ block => Fits start todo w c.target m block)
    fun p block hp hblock =>
    hp.fits_of hm (Program.block_eq_ok_iff.mp hblock)) fun w1 block hle1 hblock => ?_
  refine .bind (.peek _) fun w2 s _ _ => ?_
  refine .bind (Q := fun _ copy => R copy.1) (.edit fun p copy q hp hcopy => ?_)
    fun w3 copy _ hcopy =>
    .pure hcopy
  obtain ⟨body, σ⟩ := copy
  obtain ⟨rfl, rfl⟩ := Edit.copyFresh_ok hcopy
  exact ⟨w2, le_refl w2, hp.congr rfl rfl rfl, hR block hblock _ _⟩

section Call

variable (hloose : h ≠ .loose) (hcode : Admits start w h (.bind vars (.call c) rest))
  (hall : w.load (.bind vars (.call c) rest) ≤ all)
include hloose hcode hall

/-- The body of a block with a rank has calls of smaller ranks, and so has its end. -/
theorem settles_inlinePrefix :
    SettlesIn (Holds start todo) w (fun _ => inlinePrefix o src vars c rest)
      (Improves start h all) := by
  obtain ⟨m, hm, hwaits⟩ := hcode.1 c rfl
  unfold inlinePrefix
  refine .bind (.peek _) fun w1 other hle1 _ => .ite (fun _ => ?_) fun _ => .pure improves_none
  refine .bind (.peek _) fun w2 block hle2 _ => ?_
  cases block.code.prefixLength? with
  | none => exact .pure improves_none
  | some n =>
    refine .ite (fun _ => .pure improves_none) fun _ => ?_
    have hle : w ≤ w2 := hle1.trans hle2
    refine .bind (settles_instantiate (R := fun body =>
      body.CallsTo (w2.At (m.Ends start.recursiveAt))
      (w2.At (m.Ends start.recursiveAt)) w2.Known) (hle _ _ hm) fun block hfits t s =>
        Code.callsTo_copyFresh hfits.calls) fun w3 body hle3 hbody => ?_
    refine .bind (.look (Q := fun _ code => body.andThen vars rest = .ok code) fun _ _ _ => id)
      fun w4 code hle4 hthen => .report_pure fun w5 hle5 => ?_
    have hle25 : w2 ≤ w5 := hle3.trans (hle4.trans hle5)
    have hm5 := hle25 _ _ (hle _ _ hm)
    have hcode5 := hcode.mono (hle.trans hle25)
    have hall5 := (hcode.load_eq (hle.trans hle25)).trans_le hall
    have hwaits5 (t : BlockId) (ht : w2.At (m.Ends start.recursiveAt) t) : w5.At h.Waits t :=
      ht.imp hle25 fun _ => hwaits.trans hloose
    have hlt (t : BlockId) (ht : w2.At (m.Ends start.recursiveAt) t) :
        w5.weigh 1 t < w5.weigh 1 c.target := by
      obtain ⟨l, hl, hends⟩ := ht
      rw [weigh_of hm5, weigh_of (hle25 t l hl)]
      exact hwaits.weight_lt hloose hends
    refine improves_some ((hbody.mono hwaits5 hwaits5 fun _ => id).andThen hcode5.2 hthen) ?_
    rw [load, Code.load_andThen hthen]
    exact Code.load_lt_of_replace hall5 fun y hy => hbody.lt_of_mem_load hlt hlt hy

theorem improves_handoff {d : BlockId} (hle : w ≤ w') (hm : w.of c.target = some m)
    (hd : w'.of d = some m.copy) (hcode' : code.CallsTo (fun _ => False) (· = d) fun _ => False) :
    Improves start h all w' (some code) := by
  have hwaits : h.Waits m := (hcode.1 c rfl).prop hm
  refine improves_some (hcode'.mono (fun _ => False.elim) ?_ fun _ => False.elim) ?_
  · rintro _ rfl
    exact ⟨m.copy, hd, hwaits.ends_copy hloose⟩
  · have hlt (t : BlockId) (ht : t = d) : w'.weigh 0 t < w'.weigh 1 c.target := by
      rw [ht, weigh_of hd, weigh_of (hle _ _ hm)]
      exact hwaits.weight_copy_lt hloose
    have hload : {w'.weigh 1 c.target} + 0 ≤ all := calc
      {w'.weigh 1 c.target} + 0 ≤ w'.load (.bind vars (.call c) rest) := by
        rw [load_bind_call]
        exact add_le_add_right (Multiset.zero_le _) _
      _ = w.load (.bind vars (.call c) rest) := hcode.load_eq hle
      _ ≤ all := hall
    rw [← add_zero (w'.load code)]
    exact Code.load_lt_of_replace hload fun y hy => hcode'.lt_of_mem_load (fun _ => False.elim) hlt
      hy

theorem settles_pushEnter :
    SettlesIn (Holds start todo) w (fun _ => pushEnter o src vars c rest)
      (Improves start h all) := by
  obtain ⟨m, hm, -⟩ := hcode.1 c rfl
  unfold pushEnter
  rcases vars with - | ⟨f, - | ⟨g, vars⟩⟩
  · exact .pure improves_none
  · dsimp only
    cases entered? f rest with
    | none => exact .pure improves_none
    | some args =>
      refine .bind (.peek _) fun w1 block hle1 _ => .ite (fun _ => ?_) fun _ => .pure improves_none
      refine .bind (settles_handoffOf _ (hle1 _ _ hm)) fun w2 d hle2 hd =>
        .report_pure fun w3 hle3 => ?_
      refine improves_handoff hloose hcode hall (hle1.trans (hle2.trans hle3)) hm (hle3 _ _ hd) ?_
      rintro _ ⟨⟩
      rfl
  · exact .pure improves_none

omit hloose hcode hall in
theorem settles_continuationCandidate (b : BlockId) :
    Pass.SettlesIn (Holds start todo) w (fun _ => Pass.continuationCandidate o b) fun _ _ =>
      True := by
  unfold Pass.continuationCandidate
  refine .bind (.peek _) fun w1 block _ _ => ?_
  cases block.code with
  | done t => exact .pure trivial
  | bind | assert | branch | switch => exact .ite (fun _ => .peek _) fun _ => .pure trivial

theorem settles_pushCase :
    SettlesIn (Holds start todo) w (fun _ => pushCase o src vars c rest)
      (Improves start h all) := by
  obtain ⟨m, hm, -⟩ := hcode.1 c rfl
  unfold pushCase
  rcases vars with - | ⟨v, - | ⟨u, vars⟩⟩
  · exact .pure improves_none
  · refine .ite (fun _ => ?_) fun _ => .pure improves_none
    refine .bind (settles_continuationCandidate o c.target) fun w1 candidate hle1 _ =>
      .ite (fun _ => ?_)
      fun _ => .pure improves_none
    -- what follows the call becomes a block of its own, which no height is needed for
    refine .bind (Q := fun _ _ => True) (.edit fun p k q hp hk => ?_) fun w2 k hle2 _ => ?_
    · obtain ⟨k, stored⟩ := k
      obtain ⟨_, _, _, _, _, -, -, -, -, -, rfl⟩ := addContinuation_eq_ok hk
      refine ⟨w1, le_refl w1, hp.grow rfl rfl fun i hi => ?_, trivial⟩
      exact (Array.getElem?_push_lt hi).trans (Array.getElem?_eq_getElem hi).symm
    refine .bind (Q := fun _ _ => True) (.edit fun p cont q hp hcont => ?_) fun w3 cont hle3 _ => ?_
    · obtain ⟨-, t, rfl, -⟩ := Edit.fresh_ok hcont
      exact ⟨w2, le_refl w2, hp.congr rfl rfl rfl, trivial⟩
    have hle : w ≤ w3 := hle1.trans (hle2.trans hle3)
    refine .bind (settles_handoffOf _ (hle _ _ hm)) fun w4 d hle4 hd => .report_pure fun w5 hle5 =>
      ?_
    refine improves_handoff hloose hcode hall (hle.trans (hle4.trans hle5)) hm (hle5 _ _ hd) ⟨?_,
      ?_⟩
    · rintro _ ⟨⟩
    · rintro _ ⟨⟩
      rfl
  · exact .pure improves_none

theorem settles_inlineCall :
    SettlesIn (Holds start todo) w (fun _ => inlineCall o src vars c rest)
      (Improves start h all) := by
  unfold inlineCall
  refine .bind (settles_inlinePrefix o src hloose hcode hall) fun w1 d hle1 hd => ?_
  cases d with
  | some code => exact .pure hd
  | none =>
    have hall1 := (hcode.load_eq hle1).trans_le hall
    refine .bind (settles_pushEnter o src hloose (hcode.mono hle1) hall1) fun w2 d hle2 hd => ?_
    cases d with
    | some code => exact .pure hd
    | none =>
      have hall2 := (hcode.load_eq (hle1.trans hle2)).trans_le hall
      exact settles_pushCase o src hloose (hcode.mono (hle1.trans hle2)) hall2

end Call

theorem settles_isRecursive {i : Nat} (hi : w.of b = some (.endless i)) :
    SettlesIn (Holds start todo) w (fun _ => Pass.look (·.isRecursive (.block b)))
      fun _ r => r = start.recursiveAt i := by
  refine .look fun p r hp hr => ?_
  obtain ⟨notes, hnotes, rfl⟩ := map_eq_ok_iff.mp hr
  obtain ⟨block, hblock, rfl⟩ := map_eq_ok_iff.mp hnotes
  have hfits := hp.fits_of hi (Program.block_eq_ok_iff.mp hblock)
  simp only [(hfits.endless i rfl).2, hp.components, Program.recursiveAt]

theorem settles_suffixFits (hm : w.of b = some m) (hloose : m ≠ .loose) :
    SettlesIn (Holds start todo) w (fun _ => suffixFits o src b)
      fun _ fits => fits = true → m.Falls start.recursiveAt := by
  have hrest {w' : Heights} {block : Block} {endless : Bool}
      (hendless : endless = false → m.Falls start.recursiveAt) :
      SettlesIn (Holds start todo) w' (fun _ => do
        if endless then return false
        if block.notes.occurs = 1 ∨ block.code.isDone then return true
        if ← Pass.look (·.guarded src b) then return block.code.suffixLength ≤ o.inlineLines
        return false) fun _ fits => fits = true → m.Falls start.recursiveAt := by
    refine .ite (fun _ => .pure fun h => by cases h) fun hgoes => ?_
    have hfalls := hendless (Bool.eq_false_iff.mpr hgoes)
    refine .ite (fun _ => .pure fun _ => hfalls) fun _ => .bind (.peek _) fun w2 guarded _ _ => ?_
    exact .ite (fun _ => .pure fun _ => hfalls) fun _ => .pure fun _ => hfalls
  unfold suffixFits
  refine .bind (.look (Q := fun _ block => Fits start todo w b m block) fun p block hp hblock =>
    hp.fits_of hm (Program.block_eq_ok_iff.mp hblock)) fun w1 block hle1 hblock => ?_
  cases m with
  | ranked n =>
    dsimp only
    refine .ite (fun _ => .bind (.peek _) fun w2 endless _ _ => hrest fun _ => trivial) fun _ => ?_
    exact .bind (.pure (Q := fun _ _ => True) trivial) fun w2 endless _ _ => hrest fun _ => trivial
  | endless i =>
    simp only [(hblock.endless i rfl).1, if_true]
    refine .bind (settles_isRecursive (hle1 _ _ hm)) fun w2 endless _ hr => ?_
    exact hrest fun h => hr.symm.trans h
  | loose => exact absurd rfl hloose

/-- A block whose calls lead further down, and that may stand at an end here, is done already or has
a rank. -/
theorem Fits.admits_of_falls {block : Block} (hb : Fits start todo w b m block)
    (hm : w.of b = some m) (hready : Ready start todo w h) (hends : h.Ends start.recursiveAt m)
    (hfalls : m.Falls start.recursiveAt) : Admits start w m block.code := by
  by_cases htodo : b ∈ todo
  · cases m with
    | ranked n =>
      refine hb.calls.mono (fun t ht => ht.imp (le_refl w) fun l hl => ?_) (fun _ => id) fun _ => id
      cases l <;> exact hl
    | endless i => simp [Height.Falls, hready.recursive b htodo i hm hends] at hfalls
    | loose => exact hfalls.elim
  · exact hb.admits htodo

theorem settles_inlineSuffix (hready : Ready start todo w h) (hm : w.of c.target = some m)
    (hends : h.Ends start.recursiveAt m) :
    SettlesIn (Holds start todo) w (fun _ => inlineSuffix o src c) fun w' r =>
      ∀ code, r = some code → Admits start w' h code ∧ ∀ y ∈ w'.load code,
        y < w'.weigh 0 c.target := by
  unfold inlineSuffix
  refine .bind (settles_suffixFits o src hm (hends.bounded hready.bounded))
    fun w1 fits hle1 hfits =>
    .ite (fun hfit => ?_) fun _ => .pure fun _ h => by cases h
  have hfalls := hfits (by simp_all)
  have hm1 := hle1 _ _ hm
  refine .bind (settles_instantiate (R := Admits start w1 m) hm1 fun block hblock t s =>
    Code.callsTo_copyFresh (hblock.admits_of_falls hm1 (hready.mono hle1) hends hfalls))
      fun w2 body hle2 hbody => .report_pure fun w3 hle3 code hcode => ?_
  obtain rfl := Option.some.inj hcode
  have hbody3 := hbody.mono (hle2.trans hle3)
  have hm3 := hle3 _ _ (hle2 _ _ hm1)
  refine ⟨Code.CallsTo.mono hbody3 (fun t ht => ht.imp (le_refl w3) fun _ =>
    hends.waits hready.bounded)
    (fun t ht => ht.imp (le_refl w3) fun _ => hends.trans hready.bounded) fun _ => id, fun y hy =>
      ?_⟩
  refine Code.CallsTo.lt_of_mem_load hbody3 (fun t ht => ?_) (fun t ht => ?_) hy
  · obtain ⟨l, hl, hwaits⟩ := ht
    rw [weigh_of hm3, weigh_of hl]
    exact hfalls.weight_inner_lt hwaits
  · obtain ⟨l, hl, hlower⟩ := ht
    rw [weigh_of hm3, weigh_of hl]
    exact hfalls.weight_outer_lt hlower

/-- What comes of inlining goes on to come to an end, if it is lighter than this. -/
def GoesOn (start : Program) (todo : Set BlockId) (h : Height) (all : Multiset (Nat ×ₗ Nat))
    (w : Heights) (again : Nat → Code → Nat → Pass Code) : Prop :=
  ∀ w' code limit, w ≤ w' → Admits start w' h code → (w'.load code).IsDershowitzMannaLT all →
    Pass.SettlesIn (Holds start todo) w' (fun fuel => again fuel code limit) fun w'' code' =>
      Admits start w'' h code'

variable {again : Nat → Code → Nat → Pass Code}

theorem GoesOn.mono (hagain : GoesOn start todo h all w again) (hle : w ≤ w') :
    GoesOn start todo h all w' again := fun w1 code limit hle1 => hagain w1 code limit
      (hle.trans hle1)

/-- The call at the end goes past blocks that only pass control on, which makes it no heavier. -/
theorem settles_inlineEnd (hready : Ready start todo w h) (hagain : GoesOn start todo h all w again)
    (hcode : Admits start w h (.jump c)) (hall : w.load (.jump c) ≤ all) (limit : Nat) :
    SettlesIn (Holds start todo) w (fun fuel => inlineStatements o src (again fuel) (.jump c) limit)
      fun w' code' => Admits start w' h code' := by
  obtain ⟨m, hm, hends⟩ := hcode c rfl
  unfold Code.jump inlineStatements
  refine .bind (settles_bypassed (P := fun t => h.Ends start.recursiveAt t ∧
    t.weight 0 ≤ m.weight 0)
    (fun l t hl ht => ?_) ⟨m, hm, hends, le_refl _⟩) fun w1 c' hle1 hc' => ?_
  · exact ⟨hl.1.trans hready.bounded ht, (ht.weight_le (hl.1.bounded hready.bounded)).trans hl.2⟩
  obtain ⟨m', hm', hends', hlight⟩ := hc'
  have hjump {w' : Heights} (hle : w1 ≤ w') : Admits start w' h (.jump c') := by
    rintro _ ⟨⟩
    exact ⟨m', hle _ _ hm', hends'⟩
  cases limit with
  | zero => exact .pure (hjump (le_refl w1))
  | succ limit =>
    refine .bind (settles_inlineSuffix o src (hready.mono hle1) hm' hends') fun w2 r hle2 hr => ?_
    cases r with
    | none => exact .pure (hjump hle2)
    | some code =>
      obtain ⟨hcode', hlt⟩ := hr code rfl
      refine hagain.mono (hle1.trans hle2) w2 code limit (le_refl w2) hcode' ?_
      rw [← add_zero (w2.load code)]
      refine Code.load_lt_of_replace (x := m.weight 0) ?_ fun y hy => ?_
      · simpa only [load_jump, weigh_of hm, add_zero] using hall
      · exact (hlt y hy).trans_le (weigh_of (hle2 _ _ hm') 0 ▸ hlight)

/-- Where nothing is inlined, the rest comes first and then a detour around the call. -/
theorem settles_inlineStatements_kept (vars : List Temp) {t : Tail} (hready : Ready start todo w h)
    (ht : t.CallsTo (w.At h.Waits))
    (hrest : SettlesIn (Holds start todo) w
      (fun fuel => inlineStatements o src (again fuel) rest o.inlineNesting)
      fun w' code' => Admits start w' h code') :
    SettlesIn (Holds start todo) w (fun fuel => do
        let rest ← inlineStatements o src (again fuel) rest o.inlineNesting
        let tail ← match t with
          | .call c => Tail.call <$> bypassed c
          | tail => pure tail
        return Code.bind vars tail rest)
      fun w' code' => Admits start w' h code' := by
  refine .bind hrest fun w1 rest' hle1 hrest' => ?_
  cases t with
  | call c =>
    have hbypassed : SettlesIn (Holds start todo) w1 (fun _ => bypassed c)
        fun w' c' => w'.At h.Waits c'.target :=
      settles_bypassed (fun _ _ hm ht => hm.trans hready.bounded ht) ((ht c rfl).mono hle1)
    refine .bind (.map (R := fun w' t' => t'.CallsTo (w'.At h.Waits)) hbypassed fun w' c' _ hc' =>
      ?_)
      fun w2 t' hle2 ht' => .pure ⟨ht', hrest'.mono hle2⟩
    rintro _ ⟨⟩
    exact hc'
  | ret | enter | data | closure | sel | prim =>
    refine .bind (.pure (Q := fun w' t' => t'.CallsTo (w'.At h.Waits)) ?_)
      fun w2 t' hle2 ht' => .pure ⟨ht', hrest'.mono hle2⟩
    rintro _ ⟨⟩

theorem settles_inlineStatements (hready : Ready start todo w h)
    (hagain : GoesOn start todo h all w again) (hcode : Admits start w h code)
    (hall : w.load code ≤ all) (limit : Nat) :
    SettlesIn (Holds start todo) w (fun fuel => inlineStatements o src (again fuel) code limit)
      fun w' code' => Admits start w' h code' := by
  induction code generalizing w limit with
  | bind vars t rest ih =>
    have hkept {w' : Heights} (hle : w ≤ w') := by
      have hcode' := hcode.mono hle
      have hload : w'.load rest ≤ all := calc
        w'.load rest ≤ w'.load (.bind vars t rest) := Multiset.le_add_left ..
        _ = w.load (.bind vars t rest) := hcode.load_eq hle
        _ ≤ all := hall
      exact settles_inlineStatements_kept o src vars (hready.mono hle) hcode'.1
        (ih (hready.mono hle) (hagain.mono hle) hcode'.2 hload o.inlineNesting)
    unfold inlineStatements
    cases limit with
    | zero =>
      exact .bind (.pure (Q := fun _ r => r = none) rfl) fun w1 r hle1 hr => hr ▸ hkept hle1
    | succ limit =>
      cases t with
      | call c =>
        refine .bind (settles_inlineCall o src hready.bounded hcode hall) fun w1 r hle1 hr => ?_
        cases r with
        | none => exact hkept hle1
        | some code =>
          obtain ⟨hcode', hlighter⟩ := hr code rfl
          exact hagain w1 code limit hle1 hcode' hlighter
      | ret | enter | data | closure | sel | prim =>
        exact .bind (.pure (Q := fun _ r => r = none) rfl) fun w1 r hle1 hr => hr ▸ hkept hle1
  | assert a ctor rest ih =>
    unfold inlineStatements
    exact .bind (ih hready hagain hcode hall limit) fun w1 rest' _ hrest' =>
      .pure (show Admits .. from hrest')
  | done t =>
    cases t with
    | call c => exact settles_inlineEnd o src hready hagain hcode hall limit
    | ret | enter | data | closure | sel | prim => exact .pure hcode
  | branch test yes no =>
    unfold inlineStatements
    refine .bind (settles_bypassed_known hcode.1) fun w1 yes' hle1 hyes' => ?_
    refine .bind (settles_bypassed_known (hcode.2.mono hle1)) fun w2 no' hle2 hno' => .pure ?_
    exact ⟨hyes'.mono hle2, hno'⟩
  | switch a alts =>
    obtain ⟨harms, hdefault⟩ := Alts.forall_mem_calls.mp hcode
    unfold inlineStatements
    refine .bind (settles_bypassArms harms) fun w1 arms hle1 harms' => ?_
    refine .bind (settles_bypassDefault fun c hc => (hdefault c hc).mono hle1)
      fun w2 default hle2 hdefault' => .pure ?_
    exact Alts.forall_mem_calls.mpr ⟨fun arm harm => (harms' arm harm).mono hle2, hdefault'⟩

/-- The weights fall whenever something is inlined, so that happens finitely often. -/
theorem settles_inlineCode (hready : Ready start todo w h) (hcode : Admits start w h code)
    (limit : Nat) : SettlesIn (Holds start todo) w (fun fuel => inlineCode o src fuel code limit)
      fun w' code' => Admits start w' h code' := by
  have hwf : WellFounded (Multiset.IsDershowitzMannaLT (α := Nat ×ₗ Nat)) :=
    Multiset.wellFounded_isDershowitzMannaLT
  induction hall : w.load code using hwf.induction generalizing w code limit with
  | h all ih =>
    refine Settles.of_succ (settles_inlineStatements o src hready ?_ hcode hall.le limit)
    intro w1 code1 limit1 hle1 hcode1 hlighter
    exact ih _ hlighter (hready.mono hle1) hcode1 limit1 rfl

end Heights

end MonadicIR
