import MonadicIR.Proofs.Counting
import MonadicIR.Proofs.InliningSteps
import MonadicIR.Proofs.Layers

namespace MonadicIR

open Pass Program

namespace Heights

variable {start : Program} {todo : Set BlockId} {w w' : Heights} {h : Height} {b : BlockId}
  {code : Code}

theorem Awaits.tidy {p : Program} (hcode : Awaits start w h code) (hp : Holds start todo w p)
    {r : Code × List String} (hr : code.tidy p = .ok r) :
    Admits start w h r.1 ∧ r.1.LeavesChoice start := by
  refine ⟨?_, hcode.choice.tidy hr⟩
  refine (hcode.calls.tidy hcode.agrees (fun _ => id) hr).mono (fun t ht => ?_) (fun _ => id)
    fun _ => id
  obtain ⟨⟨m, hm, hends⟩, block, hblock, hflag⟩ := ht
  refine ⟨m, hm, ?_⟩
  cases m with
  | endless i =>
    rw [((hp.fits_of hm hblock).endless i rfl).1] at hflag
    cases hflag
  | loose => exact absurd rfl (hends.bounded hcode.bounded)
  | ranked n => cases h <;> exact hends

theorem settles_tidy (hcode : Awaits start w h code) :
    SettlesIn (Holds start todo) w (fun _ => Pass.tidy code)
      fun w' code' => Admits start w' h code' ∧ code'.LeavesChoice start := by
  unfold Pass.tidy
  exact .bind (.look (Q := fun w' r => Admits start w' h r.1 ∧ r.1.LeavesChoice start)
    fun p r hp hr => hcode.tidy hp hr) fun w1 r _ hr => .announce hr

theorem settles_simplifyCode (hcode : Admits start w h code) (hchoice : code.LeavesChoice start) :
    SettlesIn (Holds start todo) w (fun _ => simplifyCode code)
      fun w' code' => Admits start w' h code' := by
  unfold simplifyCode
  exact .bind (.look (Q := fun w' r => Admits start w' h r.1) fun p r hp hr =>
    Code.CallsTo.simplifyCases hcode (hchoice.congr hp.datatypes) hr) fun w1 r _ hr => .announce hr

variable (o : Options) {ds : List DefnId}

theorem admits_of_isGoto {block : Block} (hblock : Awaits start w h block.code)
    (hgoto : block.isGoto = true) : Admits start w h block.code := by
  have hcalls := hblock.calls
  unfold Block.isGoto at hgoto
  split at hgoto
  · rename_i c hcode
    rw [hcode] at hcalls ⊢
    exact hcalls
  · cases hgoto

theorem settles_inlineBlock (hb : b ∈ todo) (hh : w.of b = some h) (hready : Ready start todo w h) :
    Settles (Holds start todo w) (fun fuel => inlineBlock o fuel b)
      fun _ q => ∃ w', w ≤ w' ∧ Holds start (todo \ {b}) w' q := by
  refine Settles.of_program fun p hp => ?_
  unfold inlineBlock
  refine .look_bind fun block hblock => .get_bind fun s hs => ?_
  rw [block_eq_ok_iff] at hblock
  have hawaits := (hp.fits_of hh hblock).awaits hb
  refine .ite (fun hgoto => .pure fun q hq => ?_) fun _ => ?_
  · refine ⟨w, le_refl w, hq ▸ hp.finish rfl rfl hblock (fun x => ?_) hh
      (admits_of_isGoto hawaits (Bool.and_eq_true_iff.mp hgoto).1)⟩
    split
    · rename_i hxb
      rw [hxb, hblock]
    · rfl
  · refine Settles.imp (P := Holds start todo w) ?_ (fun q hq => hq ▸ hp) fun _ _ => id
    refine (settles_tidy hawaits).andThen fun w1 code hle1 hcode => ?_
    refine (settles_simplifyCode hcode.1 hcode.2).andThen fun w2 code hle2 hcode => ?_
    refine (SettlesIn.peek _).andThen fun w3 loops hle3 _ => ?_
    have hle : w ≤ w3 := hle1.trans (hle2.trans hle3)
    have hrest {w' : Heights} (hle' : w3 ≤ w') {code : Code} (hcode : Admits start w' h code) :
        Settles (Holds start todo w') (fun fuel => do
          let code ← inlineCode o b fuel code o.inlineNesting
          Pass.edit (Edit.modifyBlock b fun block => { block with code }))
          fun _ q => ∃ w', w ≤ w' ∧ Holds start (todo \ {b}) w' q := by
      refine (settles_inlineCode o b (hready.mono (hle.trans hle')) hcode _).andThen
        fun w'' code' hle'' hcode' => .edit fun p u q hp hq => ?_
      obtain ⟨old, hold, rfl⟩ := Edit.modifyBlock_eq_ok_iff.mp hq
      have hle0 : w ≤ w'' := hle.trans (hle'.trans hle'')
      exact ⟨w'', hle0, hp.setCode hold (hle0 b h hh) hcode'⟩
    dsimp only
    refine .ite (fun _ => ?_) fun _ => ?_
    · refine (SettlesIn.report _).andThen fun w4 _ hle4 _ => ?_
      refine (SettlesIn.pure (Q := fun w' code => Admits start w' h code) ?_).andThen
        fun w5 code' hle5 hcode' => hrest (hle4.trans hle5) hcode'
      rintro _ ⟨⟩
    · exact (SettlesIn.pure (Q := fun w' code => Admits start w' h code)
        (hcode.mono hle3)).andThen fun w4 code' hle4 hcode' => hrest hle4 hcode'

theorem settles_inlineTail (t : Tail) :
    SettlesIn (Holds start todo) w (fun _ => inlineTail t) fun _ _ => True := by
  cases t with
  | call c =>
    have hgoto : SettlesIn (Holds start todo) w (fun _ => bypassGoto c) fun _ _ => True :=
      .bind (.peek _) fun _ _ _ _ => .ite (fun _ => .pure trivial) fun _ => .report_pure fun _ _ =>
        trivial
    unfold inlineTail
    refine .bind hgoto fun w1 d _ _ => .bind (.peek _) fun w2 block _ _ => ?_
    cases block.code with
    | done body => exact .bind (.peek _) fun _ _ _ _ => .report_pure fun _ _ => trivial
    | bind | assert | branch | switch => exact .pure trivial
  | ret | enter | data | closure | sel | prim => exact .pure trivial

theorem settles_inlineDefn {d : DefnId} (hd : ∀ b, d ≠ .block b) :
    SettlesIn (Holds start todo) w (fun fuel => inlineDefn o fuel d) fun _ _ => True := by
  unfold inlineDefn
  refine .bind (.workOn _) fun w1 _ _ _ => ?_
  cases d with
  | block b => exact absurd rfl (hd b)
  | closure k =>
    refine .bind (.peek _) fun w2 closure _ _ => .bind (settles_inlineTail closure.tail)
      fun w3 t _ _ => ?_
    cases t with
    | none => exact .pure trivial
    | some t =>
      refine .edit fun p u q hp hq => ?_
      obtain ⟨old, -, rfl⟩ := Edit.modifyClosure_eq_ok_iff.mp hq
      exact ⟨w3, le_refl w3, hp.congr rfl rfl rfl, trivial⟩
  | top t =>
    refine .bind (.peek _) fun w2 top _ _ => .bind (settles_inlineTail top.tail) fun w3 t _ _ => ?_
    cases t with
    | none => exact .pure trivial
    | some t =>
      refine .edit fun p u q hp hq => ?_
      obtain ⟨old, -, rfl⟩ := Edit.modifyTop_eq_ok_iff.mp hq
      exact ⟨w3, le_refl w3, hp.congr rfl rfl rfl, trivial⟩

def blocksOf (ds : List DefnId) : Set BlockId := {b | .block b ∈ ds}

theorem blocksOf_cons_block (hnodup : (DefnId.block b :: ds).Nodup) :
    blocksOf (.block b :: ds) \ {b} = blocksOf ds := by
  ext x
  have hb := (List.nodup_cons.mp hnodup).1
  simp only [blocksOf, Set.mem_sdiff, Set.mem_ofPred_eq, List.mem_cons, DefnId.block.injEq,
    Set.mem_singleton_iff]
  constructor
  · rintro ⟨rfl | hx, hne⟩
    · exact absurd rfl hne
    · exact hx
  · intro hx
    refine ⟨.inr hx, ?_⟩
    rintro rfl
    exact hb hx

theorem blocksOf_cons {d : DefnId} (hd : ∀ b, d ≠ .block b) :
    blocksOf (d :: ds) = blocksOf ds := by
  ext x
  simp [blocksOf, (hd x).symm]

theorem ready_of_pairwise {first : Heights}
    (hknown : ∀ x ∈ blocksOf (.block b :: ds), first.Known x)
    (horder : (DefnId.block b :: ds).Pairwise first.NotAbove) (hle : first ≤ w)
    (hh : w.of b = some h) (hloose : h ≠ .loose) : Ready start (blocksOf (.block b :: ds)) w h := by
  have hfirst {x : BlockId} {l : Height} (hx : x ∈ blocksOf (.block b :: ds))
    (hl : w.of x = some l) :
      first.of x = some l := by
    obtain ⟨l', hl', -⟩ := hknown x hx
    rw [hl', ← hle x l' hl', hl]
  refine ⟨hloose, fun x hx => (hknown x hx).mono hle, fun x hx j hj hends => ?_⟩
  cases h with
  | ranked n => exact hends.elim
  | loose => exact absurd rfl hloose
  | endless i =>
    obtain hlt | ⟨rfl, hrecursive⟩ := hends
    · -- A block of an earlier component would have come first.
      refine absurd ?_ (Nat.not_le.mpr hlt)
      obtain heq | hmem := List.mem_cons.mp hx
      · obtain rfl := DefnId.block.inj heq
        exact (Height.endless.inj (Option.mem_unique hh hj)).le
      · exact (List.pairwise_cons.mp horder).1 _ hmem b x i j rfl rfl
          (hfirst (.head ..) hh) (hfirst hx hj)
    · exact hrecursive

theorem settles_inlineDefns {first : Heights} (hnodup : ds.Nodup)
    (hknown : ∀ b ∈ blocksOf ds, first.Known b) (horder : ds.Pairwise first.NotAbove)
    (hle : first ≤ w) :
    Settles (Holds start (blocksOf ds) w) (fun fuel => forEach (inlineDefn o fuel) ds)
      fun _ _ => True := by
  induction ds generalizing w with
  | nil => exact .pure fun _ _ => trivial
  | cons d ds ih =>
    have ih {w' : Heights} := ih (w := w') (List.nodup_cons.mp hnodup).2
      (fun b hb => hknown b (List.mem_cons_of_mem d hb)) (List.pairwise_cons.mp horder).2
    unfold forEach
    by_cases hd : ∀ b, d ≠ .block b
    · rw [blocksOf_cons hd]
      exact (settles_inlineDefn o hd).andThen fun w1 _ hle1 _ => ih (hle.trans hle1)
    · obtain ⟨b, rfl⟩ : ∃ b, d = .block b := by simpa using hd
      have hb : b ∈ blocksOf (.block b :: ds) := .head ..
      obtain ⟨h, hh, -⟩ := hknown b hb
      refine .bind (Q := fun _ q => ∃ w', w ≤ w' ∧ Holds start (blocksOf ds) w' q) ?_ fun _ s hs =>
        ?_
      · unfold inlineDefn
        refine (SettlesIn.workOn _).andThen fun w1 _ hle1 _ => ?_
        refine Settles.of_program fun p hp => ?_
        have hh1 := hle1 _ _ (hle _ _ hh)
        obtain ⟨block, hblock, hfits⟩ := hp.fits b h hh1
        have hready : Ready start _ w1 h :=
          ready_of_pairwise hknown horder (hle.trans hle1) hh1 (hfits.awaits hb).bounded
        refine Settles.imp (settles_inlineBlock o hb hh1 hready) (fun q hq => hq ▸ hp) fun _ q hq =>
          ?_
        obtain ⟨w2, hle2, hw2⟩ := hq
        exact ⟨w2, hle1.trans hle2, blocksOf_cons_block hnodup ▸ hw2⟩
      · obtain ⟨w1, hle1, hw1⟩ := hs
        exact ih (hle.trans hle1) s hw1

end Heights

namespace Program

/-- What inlining needs to start with: layers, in which no block has been copied. -/
structure Pristine (p : Program) : Prop where
  layered : p.Layered
  underived : ∀ block ∈ p.blocks, block.derived = []

theorem Pristine.setCode {p : Program} {b : BlockId} {block : Block} {code : Code} (hp : p.Pristine)
    (hblock : p.blocks[b.index]? = some block) (hrefs : ∀ d ∈ code.refs, d ∈ block.code.refs) :
    (p.setBlock b { block with code }).Pristine := by
  refine ⟨hp.layered.setCode hblock hrefs, fun x hx => ?_⟩
  obtain ⟨i, hi⟩ := Array.mem_iff_getElem?.mp hx
  have hlookup := getElem?_setBlock hblock { block with code } ⟨i⟩
  rw [hi] at hlookup
  split at hlookup
  · obtain rfl := Option.some.inj hlookup
    exact hp.underived block (Array.mem_of_getElem? hblock)
  · exact hp.underived x (Array.mem_of_getElem? hlookup.symm)

end Program

namespace Pass

variable (o : Options)

theorem settles_inlining : Settles (fun p => p.Pristine ∧ p.CasesLeaveChoice)
    (fun fuel => inlining o fuel) fun _ _ => True := by
  refine .of_program fun p hp => ?_
  obtain ⟨⟨hlayered, hunderived⟩, hchoice⟩ := hp
  unfold inlining
  refine .bind (.edit (Q := fun _ q => ∃ g, q = p.noted g ∧
    p.Ranked g (Component.allMembers p.components.toList)) fun p' u q hp' hq => ?_) fun _ => ?_
  · rw [hp'] at hq
    exact Edit.returnAnalysis_ranked hlayered.callsBack hq
  refine .of_program fun q hq => ?_
  obtain ⟨g, rfl, hg⟩ := hq
  refine .get_bind fun s hs => ?_
  have hholds := hlayered.holds hunderived hchoice hg
  have hmembers : s.program.components.toList.flatMap Component.members =
    Component.allMembers p.components.toList := by rw [hs]; rfl
  rw [hmembers]
  refine .bind (Q := fun _ _ => True) ?_ fun _ => ?_
  · refine Settles.imp (Heights.settles_inlineDefns o hlayered.nodup (fun b hb => ?_)
      hlayered.pairwise_notAbove (le_refl _)) (fun q hq => hq ▸ hholds) fun _ _ => id
    exact ⟨_, startingHeights_of hb, trivial⟩
  · exact Settles.imp (.workOn none) (fun _ => id) fun _ _ _ => trivial

/-- On the way: retained blocks that are not among these definitions have simplified
cases. -/
structure Simplifying (p : Program) (ds : List DefnId) (q : Program) : Prop where
  pristine : q.Pristine
  components : q.components = p.components
  datatypes : q.datatypes = p.datatypes
  choice : ∀ b block, p.Retained (.block b) → q.blocks[b.index]? = some block →
    .block b ∈ ds ∨ block.code.LeavesChoice p

theorem Simplifying.setCode {p q : Program} {ds : List DefnId} {b : BlockId} {block : Block}
    {r : Code × List String} (hq : Simplifying p (.block b :: ds) q)
    (hblock : q.blocks[b.index]? = some block) (hr : block.code.simplifyCases q = .ok r) :
    Simplifying p ds (q.setBlock b { block with code := r.1 }) where
  pristine := hq.pristine.setCode hblock (Code.refs_simplifyCases hr fun _ => id)
  components := hq.components
  datatypes := hq.datatypes
  choice x old hx hold := by
    rw [getElem?_setBlock hblock] at hold
    split at hold
    · obtain rfl := Option.some.inj hold
      exact .inr ((Code.leavesChoice_simplifyCases hr).congr hq.datatypes.symm)
    · rename_i hxb
      refine (hq.choice x old hx hold).imp_left fun hmem => ?_
      exact (List.mem_cons.mp hmem).resolve_left fun heq => hxb (DefnId.block.inj heq)

theorem settles_simplifyBlock (p : Program) (d : DefnId) (ds : List DefnId) :
    Settles (Simplifying p (d :: ds)) (fun _ => simplifyBlock d) fun _ => Simplifying p ds := by
  cases d with
  | block b =>
    unfold simplifyBlock
    refine .bind (.workOn _) fun _ => .of_program fun q hq => .look_bind fun block hblock => ?_
    rw [block_eq_ok_iff] at hblock
    unfold simplifyCode
    refine .bind (Q := fun code q' => q' = q ∧ ∃ r, block.code.simplifyCases q = .ok r ∧ code = r.1)
      (.look_bind fun r hr => ?_) fun code => .edit fun q1 u q2 hq1 hq2 => ?_
    · exact Settles.imp (.announce r) (fun _ => id) fun code q' hcode => ⟨hcode.1, r, hr, hcode.2⟩
    · obtain ⟨rfl, r, hr, rfl⟩ := hq1
      obtain ⟨block', hblock', rfl⟩ := Edit.modifyBlock_eq_ok_iff.mp hq2
      obtain rfl := Option.mem_unique hblock hblock'
      exact hq.setCode hblock hr
  | closure | top =>
    exact .pure fun q hq => ⟨hq.pristine, hq.components, hq.datatypes, by simpa using hq.choice⟩

theorem settles_simplifyBlocks (p : Program) (ds : List DefnId) :
    Settles (Simplifying p ds) (fun _ => forEach simplifyBlock ds) fun _ => Simplifying p [] := by
  induction ds with
  | nil => exact .pure fun _ => id
  | cons d ds ih => exact .bind (settles_simplifyBlock p d ds) fun _ => ih

theorem settles_simplifyCases : Settles Pristine (fun _ => simplifyCases)
    fun _ q => q.Pristine ∧ q.CasesLeaveChoice := by
  refine .of_program fun p hp => ?_
  unfold simplifyCases
  refine .get_bind fun s hs => ?_
  rw [hs]
  have hstart : Simplifying p p.defns p :=
    ⟨hp, rfl, rfl, fun b block hb _ => .inl (defns_of_retained hb ▸ hb)⟩
  refine .bind (Settles.imp (settles_simplifyBlocks p p.defns) (fun q hq => hq ▸ hstart) fun _ _ =>
    id)
    fun _ => Settles.imp (.workOn none) (fun _ => id) fun _ q hq => ?_
  refine ⟨hq.pristine, fun b block hb hblock => ?_⟩
  have hretained : p.Retained (.block b) := by simpa only [Retained, hq.components] using hb
  obtain hmem | hchoice := hq.choice b block hretained hblock
  · cases hmem
  · exact hchoice.congr hq.datatypes

/-- With enough fuel the action comes to an end, and further fuel changes nothing. -/
def ComesToEnd {α : Type} (x : Nat → Pass α) (s : Workbench) : Prop :=
  ∃ n r, (∀ fuel, n ≤ fuel → x fuel s = r) ∧ ∀ s', r ≠ .error .exhausted s'

theorem Settles.comesToEnd {α : Type} {P : Program → Prop} {x : Nat → Pass α}
    {Q : α → Program → Prop}
    (h : Settles P x Q) {s : Workbench} (hs : P s.program) : ComesToEnd x s := by
  obtain ⟨n, r, hr, hout⟩ := h s hs
  refine ⟨n, r, hr, ?_⟩
  rintro s' rfl
  exact hout rfl

/-- Inlining comes to an end, whatever the options, in a program whose components are up to date and
whose blocks have not been copied, if the cases are simplified first or leave a choice as they are. -/
theorem inlining_comesToEnd {s : Workbench} (hcurrent : s.program.Current)
    (hunderived : ∀ block ∈ s.program.blocks, block.derived = []) :
    ComesToEnd (fun fuel => do simplifyCases; inlining o fuel) s ∧
      (s.program.CasesLeaveChoice → ComesToEnd (fun fuel => inlining o fuel) s) := by
  have hpristine : s.program.Pristine := ⟨hcurrent.layered, hunderived⟩
  refine ⟨?_, fun hchoice => (settles_inlining o).comesToEnd ⟨hpristine, hchoice⟩⟩
  exact Settles.comesToEnd (.bind settles_simplifyCases fun _ => settles_inlining o) hpristine

end Pass

/-- The first block waits for the second, which may end in the third or in the last. The third
prints and never returns. The code of the second, and the note about the third, are given. -/
def Program.gate (code : Code) (endless : Bool) : Program where
  temps := ⟨.replicate 4 none⟩
  datatypes := #[DataType.declare 0 "Unit" [("Unit", 0)],
    DataType.declare 1 "Bool" [("False", 0), ("True", 0)]]
  blocks := #[
    { params := [⟨1⟩]
      code := .bind [⟨2⟩] (.call ⟨⟨1⟩, [.temp ⟨1⟩]⟩) (.done (.prim .add [.temp ⟨2⟩, .word 1]))
      notes := { occurs := 1, component := some 3, entrypoint := true } },
    { params := [⟨3⟩], code, notes := { occurs := 1, calls := 1, component := some 2 } },
    { params := [], code := .bind [] (.prim .print [.word 0]) (.jump ⟨⟨2⟩, []⟩)
      notes := { occurs := 2, component := some 0, neverReturns := endless } },
    { params := [], code := .done (.ret [.word 1]), notes := { occurs := 1, component := some 1 } }]
  entrypoints := [.block ⟨0⟩]
  components := #[⟨[.block ⟨2⟩], true, []⟩, ⟨[.block ⟨3⟩], false, []⟩,
    ⟨[.block ⟨1⟩], false, [0, 1]⟩, ⟨[.block ⟨0⟩], false, [2]⟩]

namespace Code

/-- A case on both constructors of its type, with a default that is never taken. -/
def fork : Code :=
  .switch (.temp ⟨3⟩)
    ⟨[⟨⟨1, 0, 0, 2, "False"⟩, ⟨⟨2⟩, []⟩⟩, ⟨⟨1, 1, 0, 2, "True"⟩, ⟨⟨3⟩, []⟩⟩], some ⟨⟨3⟩, []⟩⟩

/-- A case on the only constructor of its type, with a default that is never taken. -/
def lone : Code := .switch (.temp ⟨3⟩) ⟨[⟨⟨0, 0, 0, 1, "Unit"⟩, ⟨⟨2⟩, []⟩⟩], some ⟨⟨3⟩, []⟩⟩

def vigil : Code := .bind [⟨2⟩] (.call ⟨⟨2⟩, []⟩) (.done (.prim .add [.temp ⟨2⟩, .word 1]))

end Code

namespace Pass

theorem inlining_comesToEnd_gate :
    (Program.gate .lone false).Current ∧ (Program.gate .fork false).Current ∧
      (Program.gate .fork false).CasesLeaveChoice ∧
      ComesToEnd (fun fuel => do simplifyCases; inlining {} fuel) { program := .gate .lone false } ∧
      ComesToEnd (fun fuel => inlining {} fuel) { program := .gate .fork false } := by
  have hlone : (Program.gate .lone false).Current :=
    ⟨(Program.gate .lone false).components.toList, by decide +kernel, by decide +kernel⟩
  have hfork : (Program.gate .fork false).Current :=
    ⟨(Program.gate .fork false).components.toList, by decide +kernel, by decide +kernel⟩
  have hchoice : (Program.gate .fork false).CasesLeaveChoice := by
    have hall : ∀ block ∈ (Program.gate .fork false).blocks,
        block.code.LeavesChoice (.gate .fork false) := by decide +kernel
    exact fun b block _ hblock => hall block (Array.mem_of_getElem? hblock)
  exact ⟨hlone, hfork, hchoice,
    (inlining_comesToEnd {} (s := { program := .gate .lone false }) hlone (by decide +kernel)).1,
    (inlining_comesToEnd {} (s := { program := .gate .fork false }) hfork (by decide +kernel)).2
      hchoice⟩

variable {s : Workbench} (fuel : Nat)

/-- The body takes the place of the call, and the call at its end is waited for in turn. -/
theorem inlineCode_vigil (hs : s.program = .gate (.jump ⟨⟨2⟩, []⟩) true) (limit : Nat) :
    ∃ s', inlineCode {} ⟨0⟩ (fuel + 2) .vigil (limit + 1) s =
      (do return Code.bind [] (.prim .print [.word 0]) (← inlineCode {} ⟨0⟩ (fuel + 1) .vigil 3))
        s' ∧ s'.program = .gate (.jump ⟨⟨2⟩, []⟩) true := by
  obtain ⟨program, current, log, count⟩ := s
  obtain rfl : program = _ := hs
  cases limit <;> exact ⟨_, rfl, rfl⟩

theorem exhausted_vigil (hs : s.program = .gate (.jump ⟨⟨2⟩, []⟩) true) (limit : Nat) :
    ∃ s', inlineCode {} ⟨0⟩ fuel .vigil (limit + 1) s = .error .exhausted s' := by
  induction fuel generalizing limit s with
  | zero => exact ⟨s, rfl⟩
  | succ fuel ih =>
    obtain _ | fuel := fuel
    · obtain ⟨program, current, log, count⟩ := s
      obtain rfl : program = _ := hs
      exact ⟨_, rfl⟩
    · obtain ⟨s1, hstep, hs1⟩ := inlineCode_vigil fuel hs limit
      obtain ⟨s2, hs2⟩ := ih hs1 2
      refine ⟨s2, ?_⟩
      rw [hstep]
      simp only [bind, EStateM.bind, hs2]

theorem inlineDefn_lone (hs : s.program = .gate .lone true) {b : BlockId} (hb : b ∈ [⟨2⟩, ⟨3⟩]) :
    ∃ s', inlineDefn {} (fuel + 1) (.block b) s = .ok () s' ∧ s'.program = .gate .lone true := by
  obtain ⟨program, current, log, count⟩ := s
  obtain rfl : program = _ := hs
  simp only [List.mem_cons, List.not_mem_nil, or_false] at hb
  obtain rfl | rfl := hb <;> exact ⟨_, rfl, rfl⟩

/-- Only when inlining comes to the block with the case does it show where that leads. -/
theorem inlineDefn_lone_case (hs : s.program = .gate .lone true) :
    ∃ s', inlineDefn {} (fuel + 1) (.block ⟨1⟩) s = .ok () s' ∧
      s'.program = .gate (.jump ⟨⟨2⟩, []⟩) true := by
  obtain ⟨program, current, log, count⟩ := s
  obtain rfl : program = _ := hs
  exact ⟨_, rfl, rfl⟩

theorem inlineDefn_lone_entry (hs : s.program = .gate (.jump ⟨⟨2⟩, []⟩) true) :
    ∃ s', inlineDefn {} (fuel + 1) (.block ⟨0⟩) s = .error .exhausted s' := by
  have hstep : ∃ s1, inlineDefn {} (fuel + 1) (.block ⟨0⟩) s = (do
      let code ← inlineCode {} ⟨0⟩ fuel .vigil 2
      edit (Edit.modifyBlock ⟨0⟩ fun block => { block with code })) s1 ∧
        s1.program = .gate (.jump ⟨⟨2⟩, []⟩) true := by
    obtain ⟨program, current, log, count⟩ := s
    obtain rfl : program = _ := hs
    exact ⟨_, rfl, rfl⟩
  obtain ⟨s1, hstep, hs1⟩ := hstep
  obtain ⟨s2, hs2⟩ := exhausted_vigil fuel hs1 1
  refine ⟨s2, ?_⟩
  rw [hstep]
  simp only [bind, EStateM.bind, hs2]

/-- The case has to be simplified first: the program is checked and up to date and has no copies,
and still inlining alone goes on for as long as there is fuel. -/
theorem inlining_lone_exhausted :
    (Program.gate .lone false).check = .ok () ∧ (Program.gate .lone false).UpToDate ∧
      (∀ block ∈ (Program.gate .lone false).blocks, block.derived = []) ∧
      ∀ fuel, ∃ s', inlining {} fuel { program := .gate .lone false } = .error .exhausted s' := by
  obtain ⟨⟨⟩, w, hshake, hw⟩ := exists_ok (r := (Program.gate .lone false).shake)
    (fun _ w => decide (w.program = .gate .lone false)) (by cbv)
  have hcurrent := (upToDate_of_shake hshake).1
  rw [of_decide_eq_true hw] at hcurrent
  refine ⟨by decide +kernel, hcurrent, by decide +kernel, fun fuel => ?_⟩
  obtain _ | fuel := fuel
  · exact ⟨_, rfl⟩
  · have hreturns : ∃ s', edit Edit.returnAnalysis { program := .gate .lone false } = .ok () s' ∧
        s'.program = .gate .lone true := ⟨_, rfl, rfl⟩
    obtain ⟨s1, h1, hs1⟩ := hreturns
    obtain ⟨s2, h2, hs2⟩ := inlineDefn_lone fuel hs1 (b := ⟨2⟩) (by decide)
    obtain ⟨s3, h3, hs3⟩ := inlineDefn_lone fuel hs2 (b := ⟨3⟩) (by decide)
    obtain ⟨s4, h4, hs4⟩ := inlineDefn_lone_case fuel hs3
    obtain ⟨s5, h5⟩ := inlineDefn_lone_entry fuel hs4
    have hmembers : s1.program.components.toList.flatMap Component.members =
      [.block ⟨2⟩, .block ⟨3⟩, .block ⟨1⟩, .block ⟨0⟩] := by rw [hs1]; rfl
    refine ⟨s5, ?_⟩
    simp only [inlining, bind, EStateM.bind, h1, get, getThe, MonadStateOf.get, EStateM.get,
      hmembers, forEach, h2, h3, h4, h5]

end Pass

end MonadicIR
