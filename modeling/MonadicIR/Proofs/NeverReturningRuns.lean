import MonadicIR.Proofs.NeverReturning
import MonadicIR.Proofs.Passes

namespace MonadicIR

namespace Run

theorem evalEntry_block (p : Program) (limit : Nat) (b : BlockId) (args : List Word) :
    evalEntry p limit (.block b) args =
      runBlock p limit depthLimit (idleAtStart p) b (args.map .word) := rfl

theorem ofFault_eq_ok_iff {α : Type} {x : Except Fault α} {a : α} {s s' : Machine} :
    ofFault x s = .ok a s' ↔ x = .ok a ∧ s' = s := by
  cases x with
  | ok b => simp [ofFault, eq_comm]
  | error f => simp [ofFault, fail]

section Endless

variable {p : Program} {limit : Nat} {tops : TopId → Run (List Value)} {env : Env} {s s' : Machine}
  {f : BlockId → Prop}
  (hf : ∀ ⦃b block⦄, f b → p.blocks[b.index]? = some block → block.code.Endless f)

include hf

theorem jump_endless {c : Call} (hc : f c.target) {next : Env × Code}
    (h : jump p tops env c s = .ok next s') : next.2.Endless f := by
  obtain ⟨block, _, hblock, h⟩ := bind_ok_iff.mp h
  obtain ⟨args, _, -, h⟩ := bind_ok_iff.mp h
  obtain ⟨env', _, -, h⟩ := bind_ok_iff.mp h
  obtain ⟨rfl, -⟩ := pure_ok_iff.mp h
  exact hf hc (Program.block_eq_ok_iff.mp (ofFault_eq_ok_iff.mp hblock).1)

omit hf in
theorem prim_ne_ok {q : Prim} (hq : q.purity = .doesntReturn) (args vs : List Value) :
    prim q args s ≠ .ok vs s' := by
  intro h
  obtain ⟨w, heffect, -⟩ := ends_prim.mp (show Ends (prim q args) s (.returned vs) s' from h)
  -- Only halting and looping have this purity, and neither gives values.
  have hq : q.blackholes = true := by cases q <;> first | rfl | cases hq
  cases Prim.effect_of_blackholes hq heffect

theorem tailStep_endless {fuel : Nat} {tail : Tail} (ht : tail.Endless f) {step : Step}
    (h : tailStep p limit tops fuel env tail s = .ok step s') :
    ∃ env code, step = .jump env code ∧ code.Endless f := by
  cases fuel with
  | zero => exact absurd h throw_ne_ok
  | succ fuel =>
    unfold tailStep at h
    cases tail with
    | call c =>
      obtain ⟨next, _, hjump, h⟩ := bind_ok_iff.mp h
      obtain ⟨rfl, -⟩ := pure_ok_iff.mp h
      exact ⟨next.1, next.2, rfl, jump_endless hf ht hjump⟩
    | prim q args =>
      obtain ⟨vs, _, -, h⟩ := bind_ok_iff.mp h
      obtain ⟨xs, _, hprim, -⟩ := bind_ok_iff.mp h
      exact absurd hprim (prim_ne_ok ht vs xs)
    | ret | enter | data | closure | sel => exact ht.elim

theorem runCode_ne_ok {eval : Env → Tail → Run (List Value)}
    (heval : ∀ ⦃tail⦄, tail.Endless f → ∀ env s vs s', eval env tail s ≠ .ok vs s') (fuel : Nat)
    {code : Code} (hcode : code.Endless f) (env : Env) (s : Machine) (vs : List Value)
    (s' : Machine) : runCode p limit eval tops fuel env code s ≠ .ok vs s' := by
  intro h
  -- Every statement takes fuel, so this goes down over the statements and the jumps between blocks.
  induction fuel generalizing env code s with
  | zero => exact absurd h throw_ne_ok
  | succ fuel ih =>
    unfold runCode at h
    obtain ⟨_, s1, -, h⟩ := bind_ok_iff.mp h
    cases code with
    | done tail =>
      obtain ⟨step, s2, hstep, h⟩ := bind_ok_iff.mp h
      obtain ⟨env', code', rfl, hcode'⟩ := tailStep_endless hf hcode hstep
      exact ih hcode' env' s2 h
    | bind vars tail rest =>
      obtain ⟨xs, s2, hxs, h⟩ := bind_ok_iff.mp h
      obtain htail | hrest := hcode
      · exact heval htail env s1 xs s2 hxs
      · split at h
        · obtain ⟨_, _, hfail, -⟩ := bind_ok_iff.mp h
          exact absurd hfail throw_ne_ok
        · exact ih hrest _ s2 h
    | assert a ctor rest =>
      obtain ⟨v, s2, -, h⟩ := bind_ok_iff.mp h
      obtain ⟨_, s3, -, h⟩ := bind_ok_iff.mp h
      have hrest : rest.Endless f := hcode
      exact ih hrest env s3 h
    | branch test yes no =>
      obtain ⟨v, s2, -, h⟩ := bind_ok_iff.mp h
      obtain ⟨c, s3, hc, h⟩ := bind_ok_iff.mp h
      obtain ⟨next, s4, hnext, h⟩ := bind_ok_iff.mp h
      have htarget : f c.target := by
        cases v with
        | flag b =>
          obtain ⟨rfl, -⟩ := pure_ok_iff.mp hc
          cases b with
          | true => exact hcode.1
          | false => exact hcode.2
        | word | data | closure | external => exact absurd hc throw_ne_ok
      exact ih (jump_endless hf htarget hnext) next.1 s4 h
    | switch a alts =>
      obtain ⟨v, s2, -, h⟩ := bind_ok_iff.mp h
      obtain ⟨c, s3, hc, h⟩ := bind_ok_iff.mp h
      obtain ⟨next, s4, hnext, h⟩ := bind_ok_iff.mp h
      have htarget : f c.target := by
        cases v with
        | data ctor fields =>
          cases hsel : alts.select ctor with
          | some taken =>
            simp only [chooseArm, hsel, pure_ok_iff] at hc
            exact hcode c (Alts.mem_calls_of_select (hc.1 ▸ hsel))
          | none =>
            simp only [chooseArm, hsel] at hc
            exact absurd hc throw_ne_ok
        | word | flag | closure | external => exact absurd hc throw_ne_ok
      exact ih (jump_endless hf htarget hnext) next.1 s4 h

theorem evalTail_ne_ok (depth idle : Nat) {tail : Tail} (ht : tail.Endless f) (env : Env)
    (s : Machine)
    (vs : List Value) (s' : Machine) : evalTail p limit depth idle env tail s ≠ .ok vs s' := by
  intro h
  -- A tail that is waited for runs its callee one call deeper.
  induction depth generalizing idle env tail s vs s' with
  | zero =>
    cases idle with
    | zero => exact absurd h throw_ne_ok
    | succ idle =>
      obtain ⟨step, s1, hstep, h⟩ := bind_ok_iff.mp h
      obtain ⟨env', code, rfl, -⟩ := tailStep_endless hf ht hstep
      exact absurd h throw_ne_ok
  | succ depth ih =>
    cases idle with
    | zero => exact absurd h throw_ne_ok
    | succ idle =>
      obtain ⟨step, s1, hstep, h⟩ := bind_ok_iff.mp h
      obtain ⟨env', code, rfl, hcode⟩ := tailStep_endless hf ht hstep
      exact runCode_ne_ok hf (fun tail ht env s vs s' h => ih _ ht env s vs s' h) _ hcode env' s1 vs
        s' h

theorem runBlock_ne_ok (depth idle : Nat) {b : BlockId} (hb : f b) (args : List Value) (s : Machine)
    (vs : List Value) (s' : Machine) : runBlock p limit depth idle b args s ≠ .ok vs s' := by
  intro h
  obtain ⟨block, s1, hblock, h⟩ := bind_ok_iff.mp h
  obtain ⟨env, s2, -, h⟩ := bind_ok_iff.mp h
  have hcode := hf hb (Program.block_eq_ok_iff.mp (ofFault_eq_ok_iff.mp hblock).1)
  exact runCode_ne_ok hf (fun tail ht => evalTail_ne_ok hf depth idle ht) _ hcode env s2 vs s' h

end Endless

end Run

namespace Edit

/-- The blocks that are noted never to return do not, when the components were computed and then the
analysis was made: no evaluation of one that is still part of the program gives values. -/
theorem returnAnalysis_sound {p q p' : Program} {complaints : List Complaint} {u : Unit}
    (hcomponents : computeComponents p = .ok complaints q) (hanalysis : returnAnalysis q = .ok u p')
    {b : BlockId} {block : Block} (hret : p'.Retained (.block b))
    (hblock : p'.blocks[b.index]? = some block) (hnoted : block.notes.neverReturns = true) :
    (∀ limit depth idle args s, ∃ stop s',
      Run.runBlock p' limit depth idle b args s = .error stop s') ∧
      ∀ args limit o, p'.run (.block b) args limit = .ok o → ∀ values,
        o.termination ≠ .returned values := by
  obtain ⟨cs, hcs, rfl, -⟩ := computeComponents_eq_ok hcomponents
  have hcurrent := Program.current_setComponents hcs
  generalize p.setComponents cs = q at hanalysis hcurrent
  obtain ⟨g, rfl, hg⟩ := returnAnalysis_noted hcurrent hanalysis
  -- Noted blocks that are retained lead to noted blocks that are retained.
  let f (b : BlockId) : Prop := q.Retained (.block b) ∧ g (.block b) = true
  have hf : ∀ ⦃b block⦄, f b → (q.noted g).blocks[b.index]? = some block →
    block.code.Endless f := by
    rintro b block ⟨hb, hgb⟩ hblock
    rw [Program.getElem?_blocks_noted, Option.map_eq_some_iff] at hblock
    obtain ⟨block, hblock, rfl⟩ := hblock
    refine (hg _ hb hgb rfl hblock).mono fun c hc hgc => ⟨?_, hgc⟩
    exact hcurrent.retained_of_code hb hblock (Code.mem_refs.mpr (.inr (.inl ⟨c, hc, rfl⟩)))
  have hfb : f b := by
    rw [Program.getElem?_blocks_noted, Option.map_eq_some_iff] at hblock
    obtain ⟨_, -, rfl⟩ := hblock
    exact ⟨hret, hnoted⟩
  have hnever (limit depth idle : Nat) (args : List Value) (s : Machine) : ∃ stop s',
      Run.runBlock (q.noted g) limit depth idle b args s = .error stop s' := by
    cases h : Run.runBlock (q.noted g) limit depth idle b args s with
    | ok vs s' => exact absurd h (Run.runBlock_ne_ok hf depth idle hfb args s vs s')
    | error stop s' => exact ⟨stop, s', rfl⟩
  refine ⟨hnever, fun args limit o ho values => ?_⟩
  obtain ⟨stop, s', hstop⟩ := hnever limit Run.depthLimit (Run.idleAtStart _) (args.map .word) {}
  rw [Program.run, Run.evalEntry_block, hstop] at ho
  cases stop with
  | halted =>
    obtain rfl := Except.ok.inj ho
    simp
  | diverged =>
    obtain rfl := Except.ok.inj ho
    simp
  | failed e => cases ho

/-- A loop that prints, left only by a block that asks a third one for a value and then halts. -/
def carousel : Program where
  temps := ⟨.replicate 4 none⟩
  blocks := #[
    { params := [⟨1⟩]
      code := .bind [] (.prim .print [.temp ⟨1⟩]) (.bind [⟨2⟩] (.prim .eq [.temp ⟨1⟩, .word 0])
        (.branch (.temp ⟨2⟩) ⟨⟨1⟩, []⟩ ⟨⟨0⟩, [.word 0]⟩)) },
    { params := []
      code := .bind [⟨3⟩] (.call ⟨⟨2⟩, []⟩) (.done (.prim .halt [])) },
    { params := []
      code := .done (.ret [.word 1]) }]
  entrypoints := [.block ⟨0⟩]

theorem returnAnalysis_sound_carousel : ∃ complaints q p',
    computeComponents carousel = .ok complaints q ∧
    returnAnalysis q = .ok () p' ∧ p'.Retained (.block ⟨0⟩) ∧
    p'.run (.block ⟨0⟩) [1] 9 = .ok ⟨[.word 1, .word 0], .halted⟩ ∧
    p'.run (.block ⟨2⟩) [] 1 = .ok ⟨[], .returned [.word 1]⟩ ∧
    ∀ limit depth idle args s, ∃ stop s',
      Run.runBlock p' limit depth idle ⟨0⟩ args s = .error stop s' := by
  obtain ⟨⟨⟩, p', hboth, htest⟩ := exists_ok
    (r := (do let _ ← computeComponents; returnAnalysis : Edit Unit) carousel)
    (fun _ p' => decide (DefnId.block ⟨0⟩ ∈ Component.allMembers p'.components.toList) &&
      (p'.blocks[0]?).any (·.notes.neverReturns) &&
      decide (p'.run (.block ⟨0⟩) [1] 9 = .ok ⟨[.word 1, .word 0], .halted⟩) &&
      decide (p'.run (.block ⟨2⟩) [] 1 = .ok ⟨[], .returned [.word 1]⟩)) (by decide +kernel)
  simp only [Bool.and_eq_true, decide_eq_true_eq, Option.any_eq_true] at htest
  obtain ⟨⟨⟨hret, block, hblock, hnoted⟩, hhalts⟩, hreturns⟩ := htest
  obtain ⟨complaints, q, hcomponents, hanalysis⟩ := bind_ok_iff.mp hboth
  exact ⟨complaints, q, p', hcomponents, hanalysis, hret, hhalts, hreturns,
    (returnAnalysis_sound hcomponents hanalysis hret hblock hnoted).1⟩

end Edit

end MonadicIR
