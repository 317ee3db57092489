import MonadicIR.Optimiser.Tidy
import MonadicIR.Proofs.NeverReturningRuns
import MonadicIR.Proofs.Intact

namespace MonadicIR

namespace Code

/-- The code does nothing before it enters a block of the set. What follows a call is left open. -/
def IdlesInto (f : BlockId → Prop) : Code → Prop
  | done (.call c) | bind _ (.call c) _ => f c.target
  | bind _ tail rest => tail.hasNoEffect = true ∧ rest.IdlesInto f
  | assert _ _ rest => rest.IdlesInto f
  | done _ | branch .. | switch .. => False

theorem exists_of_idles {code : Code} {enters : BlockId → Except Fault Bool}
    (h : code.idles enters = .ok true) :
    ∃ b, enters b = .ok true ∧ ∀ f : BlockId → Prop, f b → code.IdlesInto f := by
  induction code with
  | done t =>
    cases t with
    | call c => exact ⟨c.target, h, fun f hc => hc⟩
    | ret | enter | data | closure | sel | prim => cases h
  | bind vars t rest ih =>
    have hstraight (h : (if t.hasNoEffect then rest.idles enters else .ok false) = .ok true) :
        t.hasNoEffect = true ∧
          ∃ b, enters b = .ok true ∧ ∀ f : BlockId → Prop, f b → rest.IdlesInto f := by
      split at h
      · exact ⟨‹_›, ih h⟩
      · cases h
    cases t with
    | call c => exact ⟨c.target, h, fun f hc => hc⟩
    | ret | enter | data | closure | sel | prim =>
      obtain ⟨ht, b, hb, hrest⟩ := hstraight h
      exact ⟨b, hb, fun f hf => ⟨ht, hrest f hf⟩⟩
  | assert a ctor rest ih => exact ih h
  | branch | switch => cases h

end Code

namespace Program

variable {p : Program} {src b : BlockId} {f : BlockId → Prop}

/-- Each block of the set is there, and goes on to one of the set with nothing done before. -/
def Circles (p : Program) (f : BlockId → Prop) : Prop :=
  ∀ ⦃b⦄, f b → ∃ block, p.block b = .ok block ∧ block.code.IdlesInto f

/-- From a block that passes the test, the way goes round in a set that holds all visited blocks.
That these go on so themselves is left to the caller, who knows how they lead to the block. -/
theorem exists_of_blockIdles {fuel : Nat} {visited : List BlockId}
    (h : p.blockIdles src fuel visited b = .ok true) : ∃ f : BlockId → Prop, f b ∧
      (∀ v ∈ visited, f v) ∧
      ∀ x, f x → x ∈ visited ∨ ∃ block, p.block x = .ok block ∧ block.code.IdlesInto f := by
  induction fuel generalizing visited b with
  | zero => cases h
  | succ fuel ih =>
    unfold blockIdles at h
    split at h
    · rename_i hseen
      exact ⟨(· ∈ visited), List.contains_iff_mem.mp hseen, fun _ => id, fun _ => .inl⟩
    · obtain ⟨other, -, h⟩ := bind_eq_ok_iff.mp h
      cases other with
      | true => cases h
      | false =>
        obtain ⟨block, hblock, h⟩ := bind_eq_ok_iff.mp h
        obtain ⟨next, hnext, hcode⟩ := Code.exists_of_idles h
        obtain ⟨f, hfnext, hvisited, hclosed⟩ := ih hnext
        obtain ⟨hfb, hvisited⟩ := List.forall_mem_cons.mp hvisited
        refine ⟨f, hfb, hvisited, fun x hx => ?_⟩
        obtain hmem | hgoes := hclosed x hx
        · obtain rfl | hmem := List.mem_cons.mp hmem
          · exact .inr ⟨block, hblock, hcode f hfnext⟩
          · exact .inl hmem
        · exact .inr hgoes

theorem exists_circle {block : Block} (hblock : p.block src = .ok block)
    (h : p.loopsForever src block.code = .ok true) : ∃ f, f src ∧ p.Circles f := by
  obtain ⟨recursive, -, h⟩ := bind_eq_ok_iff.mp h
  cases recursive with
  | false => cases h
  | true =>
    obtain ⟨next, hnext, hcode⟩ := Code.exists_of_idles h
    obtain ⟨f, hfnext, hvisited, hclosed⟩ := exists_of_blockIdles hnext
    refine ⟨f, hvisited src (List.mem_singleton_self src), fun x hx => ?_⟩
    obtain hmem | hgoes := hclosed x hx
    · obtain rfl := List.mem_singleton.mp hmem
      exact ⟨block, hblock, hcode f hfnext⟩
    · exact hgoes

end Program

namespace Run

/-- The run does not halt, leaves the world as it is and gives what is asked for, if it returns. -/
def Still {α : Type} (x : Run α) (P : α → Prop) : Prop :=
  ∀ s : Machine, match x s with
    | .ok a s' => s'.world = s.world ∧ P a
    | .error stop s' => s'.world = s.world ∧ stop ≠ .halted

namespace Still

variable {α β : Type} {x : Run α} {P : α → Prop} {Q : β → Prop}

protected theorem pure {a : α} (h : P a) : Still (pure a) P := fun _ => ⟨rfl, h⟩

theorem fail {e : RunError} : Still (fail e : Run α) P := fun _ => ⟨rfl, by simp⟩

theorem diverged : Still (throw .diverged : Run α) P := fun _ => ⟨rfl, by simp⟩

protected theorem bind {g : α → Run β} (hx : Still x P) (hg : ∀ a, P a → Still (g a) Q) :
    Still (x >>= g) Q := by
  intro s
  have hx' := hx s
  revert hx'
  simp only [bind, EStateM.bind]
  cases x s with
  | ok a s' =>
    rintro ⟨hworld, ha⟩
    have hg' := hg a ha s'
    revert hg'
    dsimp only
    cases g a s' <;> exact fun hg' => ⟨hg'.1.trans hworld, hg'.2⟩
  | error e s' => exact id

theorem looks (hx : Looks x) : Still x fun _ => True := by
  intro s
  obtain ⟨a, ha⟩ | ⟨e, he⟩ := hx s
  · rw [ha]
    exact ⟨rfl, trivial⟩
  · rw [he]
    exact ⟨rfl, by simp⟩

theorem modify {g : Machine → Machine} (h : ∀ s, (g s).world = s.world) :
    Still (modify g) fun _ => True := fun s => ⟨h s, trivial⟩

theorem tick (limit : Nat) : Still (tick limit) fun _ => True := by
  refine .bind (modify fun _ => rfl) fun _ _ => .bind (looks looks_get) fun s _ => ?_
  split
  · exact diverged
  · exact .pure trivial

theorem ofFault (r : Except Fault α) : Still (ofFault r) fun a => r = .ok a := by
  cases r with
  | ok a => exact .pure rfl
  | error f => exact fail

end Still

variable {p : Program} {limit : Nat} {tops : TopId → Run (List Value)} {env : Env}

theorem prim_still {q : Prim} (hq : q.purity.hasNoEffect = true) (args : List Value) :
    Still (prim q args) fun _ => True := by
  cases q.request args with
  | load a =>
    have hload : Still (load a) fun _ => True := .bind (.looks looks_get) fun s _ => .pure trivial
    exact .bind hload fun w _ => .pure trivial
  | ticks => exact .bind (.looks looks_get) fun s _ => .pure trivial
  | store | print | halt | loop => cases hq
  | value hrun =>
    rw [hrun]
    unfold compute
    split
    · exact .pure trivial
    · exact .fail

section Operands

variable (htops : ∀ t, Still (tops t) fun _ => True)

include htops

theorem atom_still (a : Atom) : Still (atom tops env a) fun _ => True := by
  cases a with
  | temp t =>
    simp only [atom]
    split
    · exact .pure trivial
    · exact .fail
  | top r =>
    refine .bind (htops r.top) fun vs _ => ?_
    split
    · exact .pure trivial
    · exact .fail
  | word | flag | external => exact .pure trivial

theorem atoms_still (as : List Atom) : Still (atoms tops env as) fun _ => True := by
  induction as with
  | nil => exact .pure trivial
  | cons a as ih =>
    exact .bind (atom_still htops a) fun v _ => .bind ih fun vs _ => .pure trivial

theorem tailStep_still {tail : Tail} (ht : tail.hasNoEffect = true) (fuel : Nat) :
    Still (tailStep p limit tops fuel env tail) fun step => ∃ vs, step = .values vs := by
  cases fuel with
  | zero => exact .diverged
  | succ fuel =>
    cases tail with
    | ret args => exact .bind (atoms_still htops args) fun vs _ => .pure ⟨_, rfl⟩
    | data ctor args => exact .bind (atoms_still htops args) fun vs _ => .pure ⟨_, rfl⟩
    | closure k args => exact .bind (atoms_still htops args) fun vs _ => .pure ⟨_, rfl⟩
    | sel ctor field a =>
      exact .bind (atom_still htops a) fun v _ =>
        .bind (.looks looks_select) fun _ _ => .pure ⟨_, rfl⟩
    | prim q args =>
      exact .bind (atoms_still htops args) fun vs _ => .bind (prim_still ht vs) fun _ _ =>
        .pure ⟨_, rfl⟩
    | call | enter => cases ht

end Operands

theorem topValues_still (hpure : p.PureTops) {eval : Env → Tail → Run (List Value)}
    (heval : ∀ tail : Tail, tail.isPure = true → Still (eval [] tail) fun _ => True) (t : TopId) :
    Still (topValues p eval t) fun _ => True := by
  refine .bind (.looks looks_get) fun s _ => ?_
  split
  · exact .pure trivial
  · split
    · exact .bind (P := fun _ => False) .fail fun _ h => h.elim
    · refine .bind (.ofFault _) fun top htop => .bind (.modify fun _ => rfl) fun _ _ => ?_
      have htail := heval top.tail (hpure.isPure (Program.top_eq_ok_iff.mp htop))
      refine .bind htail fun vs _ => .bind (.modify fun _ => rfl) fun _ _ => ?_
      split
      · exact .bind (P := fun _ => False) .fail fun _ h => h.elim
      · exact .bind (.modify fun _ => rfl) fun _ _ => .pure trivial

section Levels

variable {below : Nat → Env → Code → Run (List Value)}

theorem tailLevel_still {idle : Nat}
    (htops : ∀ t, Still (topValues p (tailLevel p limit below idle) t) fun _ => True) {tail : Tail}
    (ht : tail.hasNoEffect = true) (env : Env) :
    Still (tailLevel p limit below (idle + 1) env tail) fun _ => True := by
  refine .bind (tailStep_still htops ht _) ?_
  rintro _ ⟨vs, rfl⟩
  exact .pure trivial

theorem tops_still (hpure : p.PureTops) (idle : Nat) (t : TopId) :
    Still (topValues p (tailLevel p limit below idle) t) fun _ => True := by
  induction idle generalizing t with
  | zero => exact topValues_still hpure (fun _ _ => .diverged) t
  | succ idle ih =>
    refine topValues_still hpure (fun tail ht => tailLevel_still ih ?_ []) t
    simp_all [Tail.isPure, Tail.hasNoEffect, Purity.isPure, Purity.hasNoEffect, Purity.rank]

theorem evalTail_still (hpure : p.PureTops) (depth idle : Nat) (env : Env) (tail : Tail)
    (ht : tail.hasNoEffect = true) : Still (evalTail p limit depth idle env tail) fun _ =>
      True := by
  cases idle with
  | zero => cases depth <;> exact .diverged
  | succ idle => cases depth <;> exact tailLevel_still (tops_still hpure idle) ht env

theorem evalTail_tops_still (hpure : p.PureTops) (depth idle : Nat) (t : TopId) :
    Still (topValues p (evalTail p limit depth idle) t) fun _ => True := by
  cases depth <;> exact tops_still hpure idle t

end Levels

section Circle

variable {f : BlockId → Prop} (hf : p.Circles f)

include hf

theorem jump_circles (htops : ∀ t, Still (tops t) fun _ => True) {c : Call} (hc : f c.target) :
    Still (jump p tops env c) fun next => next.2.IdlesInto f := by
  obtain ⟨block, hblock, hcode⟩ := hf hc
  refine .bind (.ofFault _) fun found hfound => ?_
  obtain rfl := Except.ok.inj (hblock.symm.trans hfound)
  exact .bind (atoms_still htops c.args) fun args _ =>
    .bind (.looks looks_enter) fun _ _ => .pure hcode

theorem tailStep_circles (htops : ∀ t, Still (tops t) fun _ => True) {c : Call} (hc : f c.target)
    (fuel : Nat) : Still (tailStep p limit tops fuel env (.call c)) fun step =>
      ∃ env code, step = .jump env code ∧ code.IdlesInto f := by
  cases fuel with
  | zero => exact .diverged
  | succ fuel =>
    exact .bind (jump_circles hf htops hc) fun next hnext => .pure ⟨next.1, next.2, rfl, hnext⟩

/-- Code that idles never gets to an end, if calls into the circle that are waited for do not. -/
theorem runCode_circles {eval : Env → Tail → Run (List Value)}
    (htops : ∀ t, Still (tops t) fun _ => True)
    (heval : ∀ env tail, tail.hasNoEffect = true → Still (eval env tail) fun _ => True)
    (hcall : ∀ env c, f c.target → Still (eval env (.call c)) fun _ => False) (fuel : Nat)
    {code : Code}
    (hcode : code.IdlesInto f) : Still (runCode p limit eval tops fuel env code) fun _ =>
      False := by
  -- Every statement takes fuel, also the one that jumps on to the next block of the circle.
  induction fuel generalizing env code with
  | zero => exact .diverged
  | succ fuel ih =>
    refine .bind (.tick limit) fun _ _ => ?_
    cases code with
    | done t =>
      cases t with
      | call c =>
        refine .bind (tailStep_circles hf htops hcode _) ?_
        rintro _ ⟨env, code, rfl, hcode⟩
        exact ih hcode
      | ret | enter | data | closure | sel | prim => exact hcode.elim
    | bind vars t rest =>
      have hstraight (h : t.hasNoEffect = true ∧ rest.IdlesInto f) : Still (do
          let values ← eval env t
          if values.length ≠ vars.length then
            fail (.arity (.binding t) vars.length values.length)
          runCode p limit eval tops fuel (env.bind vars values) rest) fun _ => False := by
        refine .bind (heval env t h.1) fun vs _ => ?_
        split
        · exact .bind (P := fun _ => False) .fail fun _ h => h.elim
        · exact ih h.2
      cases t with
      | call c => exact .bind (hcall env c hcode) fun _ h => h.elim
      | ret | enter | data | closure | sel | prim => exact hstraight hcode
    | assert a ctor rest =>
      refine .bind (atom_still htops a) fun v _ => .bind (.looks looks_assertCtor) fun _ _ => ?_
      exact ih hcode
    | branch | switch => exact hcode.elim

theorem evalTail_circles (hpure : p.PureTops) (depth idle : Nat) (env : Env) (c : Call)
    (hc : f c.target) : Still (evalTail p limit depth idle env (.call c)) fun _ => False := by
  -- A call that is waited for goes round one call deeper, and there is an end to that too.
  induction depth generalizing idle env c with
  | zero =>
    cases idle with
    | zero => exact .diverged
    | succ idle =>
      refine .bind (tailStep_circles hf (tops_still hpure idle) hc _) ?_
      rintro _ ⟨env, code, rfl, -⟩
      exact .fail
  | succ depth ih =>
    cases idle with
    | zero => exact .diverged
    | succ idle =>
      refine .bind (tailStep_circles hf (tops_still hpure idle) hc _) ?_
      rintro _ ⟨env, code, rfl, hcode⟩
      exact runCode_circles hf (evalTail_tops_still hpure depth idle) (evalTail_still hpure depth
        (idle + 1))
        (fun env c hc => ih (idle + 1) env c hc) _ hcode

theorem runBlock_circles (hpure : p.PureTops) (depth idle : Nat) {b : BlockId} (hb : f b)
    (args : List Value) : Still (runBlock p limit depth idle b args) fun _ => False := by
  obtain ⟨block, hblock, hcode⟩ := hf hb
  refine .bind (.ofFault _) fun found hfound => ?_
  obtain rfl := Except.ok.inj (hblock.symm.trans hfound)
  refine .bind (.looks looks_enter) fun env _ => ?_
  exact runCode_circles hf (evalTail_tops_still hpure depth (idle - 1))
    (evalTail_still hpure depth idle)
    (evalTail_circles hf hpure depth idle) _ hcode

end Circle

end Run

namespace Program

/-- A block that is found to go round in circles does so. However its evaluation is started, it does
not return and does not halt, and leaves memory, clock and output as they are. -/
theorem loopsForever_sound {p : Program} (hpure : p.PureTops) {b : BlockId} {block : Block}
    (hblock : p.block b = .ok block) (h : p.loopsForever b block.code = .ok true) :
    (∀ limit depth idle args s, ∃ stop s', Run.runBlock p limit depth idle b args s = .error stop
      s' ∧
      stop ≠ .halted ∧ s'.output = s.output ∧ s'.memory = s.memory ∧ s'.clock = s.clock) ∧
      ∀ args limit o, p.run (.block b) args limit = .ok o → o = ⟨[], .diverged⟩ := by
  obtain ⟨f, hb, hf⟩ := exists_circle hblock h
  have hstill (limit depth idle : Nat) (args : List Value) (s : Machine) : ∃ stop s',
      Run.runBlock p limit depth idle b args s = .error stop s' ∧ stop ≠ .halted ∧
        s'.world = s.world := by
    have hcircles : Run.Still (Run.runBlock p limit depth idle b args) fun _ => False :=
      Run.runBlock_circles hf hpure depth idle hb args
    have hrun := hcircles s
    revert hrun
    cases Run.runBlock p limit depth idle b args s with
    | ok vs s' => exact fun hrun => hrun.2.elim
    | error stop s' => exact fun hrun => ⟨stop, s', rfl, hrun.2, hrun.1⟩
  refine ⟨fun limit depth idle args s => ?_, fun args limit o ho => ?_⟩
  · obtain ⟨stop, s', hrun, hstop, hworld⟩ := hstill limit depth idle args s
    exact ⟨stop, s', hrun, hstop, congrArg World.output hworld, congrArg World.memory hworld,
      congrArg World.clock hworld⟩
  · obtain ⟨stop, s', hrun, hstop, hworld⟩ :=
      hstill limit Run.depthLimit (Run.idleAtStart p) (args.map .word) {}
    have houtput : s'.output = #[] := congrArg World.output hworld
    rw [Program.run, Run.evalEntry_block, hrun] at ho
    cases stop with
    | halted => exact absurd rfl hstop
    | diverged =>
      obtain rfl := Except.ok.inj ho
      rw [houtput]
    | failed e => cases ho

/-- A circle of three blocks, with a call that is waited for and a pure top-level that is read, and
a block that prints as it goes round. -/
def spinning : Program where
  temps := ⟨.replicate 6 none⟩
  blocks := #[
    { params := [⟨1⟩]
      code := .bind [⟨2⟩] (.prim .add [.temp ⟨1⟩, .top ⟨⟨0⟩, 0⟩]) (.jump ⟨⟨1⟩, [.temp ⟨2⟩]⟩) },
    { params := [⟨3⟩]
      code := .bind [⟨4⟩] (.call ⟨⟨2⟩, [.temp ⟨3⟩]⟩) (.done (.ret [.temp ⟨4⟩])) },
    { params := [⟨5⟩]
      code := .bind [.wildcard] (.prim .load [.temp ⟨5⟩]) (.jump ⟨⟨0⟩, [.temp ⟨5⟩]⟩) },
    { params := []
      code := .bind [] (.prim .print [.word 1]) (.jump ⟨⟨3⟩, []⟩) }]
  tops := #[{ lhs := [⟨"one", none⟩], tail := .ret [.word 1] }]
  entrypoints := [.block ⟨0⟩, .block ⟨3⟩]

theorem loopsForever_sound_spinning : ∃ complaints p' block,
    Edit.computeComponents spinning = .ok complaints p' ∧ p'.check = .ok () ∧ p'.PureTops ∧
      p'.block ⟨0⟩ = .ok block ∧ p'.loopsForever ⟨0⟩ block.code = .ok true ∧
      (∀ limit depth idle args s, ∃ stop s', Run.runBlock p' limit depth idle
        ⟨0⟩ args s = .error stop s' ∧
        stop ≠ .halted ∧ s'.output = s.output ∧ s'.memory = s.memory ∧ s'.clock = s.clock) ∧
      ∃ chatty, p'.block ⟨3⟩ = .ok chatty ∧ p'.loopsForever ⟨3⟩ chatty.code = .ok false := by
  obtain ⟨complaints, p', hrun, htest⟩ := exists_ok (r := Edit.computeComponents spinning)
    (fun _ p' => decide (p'.check = .ok ()) && decide (∀ top ∈ p'.tops, top.tail.isPure = true) &&
      (p'.blocks[0]?).any (fun block => decide (p'.loopsForever ⟨0⟩ block.code = .ok true)) &&
      (p'.blocks[3]?).any (fun block => decide (p'.loopsForever ⟨3⟩ block.code = .ok false)))
        (by cbv)
  simp only [Bool.and_eq_true, decide_eq_true_eq, Option.any_eq_true] at htest
  obtain ⟨⟨⟨hcheck, hpure⟩, block, hblock, hloops⟩, chatty, hchatty, hnot⟩ := htest
  have hblock : p'.block ⟨0⟩ = .ok block := block_eq_ok_iff.mpr hblock
  exact ⟨complaints, p', block, hrun, hcheck, hpure, hblock, hloops,
    (loopsForever_sound hpure hblock hloops).1, chatty, block_eq_ok_iff.mpr hchatty, hnot⟩

end Program

end MonadicIR
