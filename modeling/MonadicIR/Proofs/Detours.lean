import MonadicIR.Optimiser.Detour
import MonadicIR.Proofs.Checked
import MonadicIR.Proofs.Correspondence
import MonadicIR.Proofs.Passes
import MonadicIR.Proofs.Renaming

namespace MonadicIR

namespace Program

variable {p : Program} {c d : Call}

/-- The call has an argument for each parameter of its target. -/
def Fits (p : Program) (c : Call) : Prop :=
  ∃ block, p.blocks[c.target.index]? = some block ∧ block.params.length = c.args.length

/-- The target of the first call does nothing but make the second one. -/
def Relays (p : Program) (c d : Call) : Prop :=
  ∃ block next, p.blocks[c.target.index]? = some block ∧ block.code = .jump next ∧
    block.isGoto = true ∧ d = next.apply (({} : Subst).extendAll block.params c.args)

/-- The way from the first call to the second one, given the blocks that were met before. No bound
is set to its length: it ends where control stays, or would come back. -/
inductive Detour (p : Program) : List BlockId → Call → Call → Prop
  | stop {visited c} (h : ∀ d, p.Relays c d → d.target ∈ visited) : Detour p visited c c
  | step {visited c d e} (h : p.Relays c d) (hnew : d.target ∉ visited)
      (hrest : Detour p (d.target :: visited) d e) : Detour p visited c e

theorem Relays.fits (h : p.Relays c d) (hchecked : ∀ d ∈ p.allDefns, p.checkDefn d = .ok ()) :
    p.Fits d := by
  obtain ⟨block, next, hblock, hcode, -, rfl⟩ := h
  obtain ⟨_, hblock', -, hcheck⟩ := checkDefn_block.mp
    (hchecked _ (mem_allDefns.mpr (defines_block_iff.mpr ⟨block, hblock⟩)))
  obtain rfl := Option.some.inj (hblock.symm.trans hblock')
  rw [hcode, Code.jump, checkCode_done, checkTail_eq_ok_iff, checkShape_call] at hcheck
  simpa [Fits, Call.apply, Subst.applyAll] using hcheck.2

theorem Detour.fits {visited : List BlockId} (h : p.Detour visited c d)
    (hchecked : ∀ d ∈ p.allDefns, p.checkDefn d = .ok ()) (hc : p.Fits c) : p.Fits d := by
  induction h with
  | stop => exact hc
  | step h _ _ ih => exact ih (h.fits hchecked)

theorem Relays.runs (h : p.Relays c d) {calls depth n : Nat} {env : Env} {w w' : World} {e : Result}
    (hrun : (Code.jump c).Runs (p.counted calls) .machine depth n 0 env w e w') :
    ∃ calls, (Code.jump d).Runs (p.counted calls) .machine depth n 0 env w e w' := by
  obtain ⟨block, next, hblock, hcode, -, rfl⟩ := h
  obtain ⟨u, hu, _, ⟨⟩, vs, m, hvs, rfl, hjump⟩ := hrun
  cases calls with
  | zero => exact hjump.elim
  | succ calls =>
    obtain ⟨_, hblock', hlen, hbody⟩ := hjump
    obtain rfl := Option.some.inj (hblock.symm.trans hblock')
    rw [hcode] at hbody
    obtain ⟨u', hu', _, ⟨⟩, hnext⟩ := hbody
    rw [meaning_top] at hvs
    have hcarries : (({} : Subst).extendAll block.params c.args).Carries (p.counted calls).top
        (Env.bind [] block.params vs) env := by
      rw [meaning_top]
      exact Subst.Carries.nil.extendAll (hlen.trans hvs.length_eq.symm) hvs
    rw [Use.endsWithin_zero_iff] at hu'
    refine ⟨calls, u', ?_, _, rfl, hnext.apply hcarries⟩
    rw [Use.endsWithin_zero_iff]
    rw [meaning_rank, Use.endsWithin_zero_iff] at hu
    exact hu'.trans hu

theorem Detour.runs {visited : List BlockId} (h : p.Detour visited c d) {calls depth n : Nat}
    {env : Env} {w w' : World} {e : Result}
    (hrun : (Code.jump c).Runs (p.counted calls) .machine depth n 0 env w e w') :
    ∃ calls, (Code.jump d).Runs (p.counted calls) .machine depth n 0 env w e w' := by
  induction h generalizing calls with
  | stop => exact ⟨calls, hrun⟩
  | step h _ _ ih =>
    obtain ⟨_, hrun⟩ := h.runs hrun
    exact ih hrun

theorem exists_detour (hchecked : ∀ d ∈ p.allDefns, p.checkDefn d = .ok ()) {fuel : Nat}
    {visited : List BlockId} (hc : p.Fits c) (hnodup : visited.Nodup)
    (hvisited : ∀ b ∈ visited, b ∈ p.blockIds) (hfuel : p.blocks.size < fuel + visited.length) :
    ∃ d, p.followGotos fuel visited c = .ok d ∧ p.Detour visited c d := by
  induction fuel generalizing visited c with
  | zero =>
    have hle := (hnodup.subperm hvisited).length_le
    rw [blockIds, List.length_map, List.length_range] at hle
    omega
  | succ fuel ih =>
    obtain ⟨block, hblock, hlen⟩ := hc
    have hstay (h : ∀ next, block.code = .jump next → block.isGoto = true → next.target ∈ visited) :
        p.Detour visited c c := by
      refine .stop fun d hd => ?_
      obtain ⟨_, next, hblock', hcode, hgoto, rfl⟩ := hd
      obtain rfl := Option.some.inj (hblock.symm.trans hblock')
      exact h next hcode hgoto
    simp only [followGotos, block_eq_ok_iff.mpr hblock, bind, Except.bind]
    split
    · rename_i next hcode
      split
      · rename_i hcond
        simp only [Bool.and_eq_true, Bool.not_eq_true', List.contains_eq_mem,
          decide_eq_false_iff_not] at hcond
        have hpass : p.Relays c _ := ⟨block, next, hblock, hcode, hcond.1, rfl⟩
        obtain ⟨target, htarget, htargetLen⟩ := hpass.fits hchecked
        have hmem : next.target ∈ p.blockIds := List.mem_map.mpr
          ⟨_, List.mem_range.mpr (Array.getElem?_eq_some_iff.mp htarget).1, rfl⟩
        obtain ⟨d, hd, hdetour⟩ := ih ⟨target, htarget, htargetLen⟩
          (List.nodup_cons.mpr ⟨hcond.2, hnodup⟩) (List.forall_mem_cons.mpr ⟨hmem, hvisited⟩)
          (by rw [List.length_cons]; omega)
        refine ⟨d, ?_, .step hpass hcond.2 hdetour⟩
        rw [Subst.bind, if_pos hlen]
        exact hd
      · rename_i hcond
        refine ⟨c, rfl, hstay fun next' hcode' hgoto => ?_⟩
        cases hcode.symm.trans hcode'
        simpa [hgoto] using hcond
    · rename_i hother
      exact ⟨c, rfl, hstay fun next hcode _ => absurd hcode (hother next)⟩

end Program

theorem Pass.bypassGoto_ok {s : Workbench} {c d : Call} (hd : s.program.bypass c = .ok d) :
    ∃ r s', bypassGoto c s = .ok r s' ∧ s'.program = s.program ∧ r.getD c = d := by
  have hlook : look (·.bypass c) s = .ok d s := look_eq_ok_iff.mpr ⟨hd, rfl⟩
  simp only [bypassGoto, bind_ok_iff]
  by_cases hsame : d = c
  · exact ⟨none, s, ⟨d, s, hlook, by rw [if_pos hsame]; rfl⟩, rfl, hsame.symm⟩
  · refine ⟨some d, { s with
        log := s.log.push ⟨s.current, s!"{c.text} bypasses goto blocks to {d.text}"⟩
        count := s.count + 1 }, ⟨d, s, hlook, ?_⟩, rfl, rfl⟩
    rw [if_neg hsame]
    rfl

/-- Blocks that only pass control on can be left out. For a call that fits its target, in a program
in which every definition has been checked, the call past them is found at the end of the way, and
fits its target too. It ends as the first call does, after no more steps, wherever that returns or
halts. -/
theorem Pass.bypassGoto_faithful (s : Workbench)
    (hchecked : ∀ d ∈ s.program.allDefns, s.program.checkDefn d = .ok ())
    (hpure : s.program.PureTops) (c : Call) (hc : s.program.Fits c) :
    ∃ r s', bypassGoto c s = .ok r s' ∧ s'.program = s.program ∧
      s.program.Detour [c.target] c (r.getD c) ∧ s.program.Fits (r.getD c) ∧
      ∀ ⦃limit depth : Nat⦄ ⦃env : Env⦄ ⦃m m' : Machine⦄ ⦃e : Result⦄, m.Settled s.program limit →
        Run.Ends (Run.evalCode s.program limit depth (Run.idleAtStart s.program) env (.jump c)) m e
          m' →
        ∃ m'', Run.Ends (Run.evalCode s.program limit depth (Run.idleAtStart s.program) env
          (.jump (r.getD c))) m e m'' ∧ m''.world = m'.world ∧ m''.steps ≤ m'.steps := by
  obtain ⟨block, hblock, -⟩ := id hc
  have hmem : c.target ∈ s.program.blockIds := List.mem_map.mpr
    ⟨_, List.mem_range.mpr (Array.getElem?_eq_some_iff.mp hblock).1, rfl⟩
  obtain ⟨d, hd, hdetour⟩ : ∃ d, s.program.bypass c = .ok d ∧ s.program.Detour [c.target] c d :=
    Program.exists_detour hchecked hc (List.nodup_singleton c.target) (by simpa using hmem)
      (by simp)
  obtain ⟨r, s', hres, hprogram, hr⟩ := bypassGoto_ok hd
  refine ⟨r, s', hres, hprogram, hr ▸ hdetour, hr ▸ hdetour.fits hchecked hc, ?_⟩
  intro limit depth env m m' e hm hrun
  obtain ⟨hm', calls, n, hn, hcode⟩ := Run.evalCode_sound hpure hm hrun
  obtain ⟨calls', hcode'⟩ := hdetour.runs hcode
  have hsteps := hm'.steps
  obtain ⟨m'', hends, -, hworld, hle⟩ := Run.evalCode_complete hm hcode' (by omega)
  exact ⟨m'', hr ▸ hends, hworld, hn ▸ hle⟩

/-- Two blocks that pass control on to a third one, with some arguments swapped, doubled and
dropped, and two that pass it on to each other. -/
def Program.relay : Program where
  temps := ⟨.replicate 10 none⟩
  blocks := #[
    { params := [⟨1⟩, ⟨2⟩], code := .jump ⟨⟨1⟩, [.temp ⟨2⟩, .temp ⟨1⟩, .temp ⟨2⟩]⟩ },
    { params := [⟨3⟩, ⟨4⟩, ⟨5⟩], code := .jump ⟨⟨2⟩, [.temp ⟨5⟩, .temp ⟨4⟩]⟩ },
    { params := [⟨6⟩, ⟨7⟩], code := .done (.prim .sub [.temp ⟨6⟩, .temp ⟨7⟩]) },
    { params := [⟨8⟩], code := .jump ⟨⟨4⟩, [.temp ⟨8⟩]⟩ },
    { params := [⟨9⟩], code := .jump ⟨⟨3⟩, [.temp ⟨9⟩]⟩ }]

theorem Pass.bypassGoto_faithful_relay :
    (∃ s', bypassGoto ⟨⟨0⟩, [.word 3, .word 7]⟩ { program := .relay } =
        .ok (some ⟨⟨2⟩, [.word 7, .word 3]⟩) s' ∧
      ∃ vs m, Value.observeAll vs = [.word 4] ∧
        Run.evalCode .relay 4 0 (Run.idleAtStart .relay) [] (.jump ⟨⟨2⟩, [.word 7, .word 3]⟩) {} =
          .ok vs m) ∧
    ∃ r s', bypassGoto ⟨⟨3⟩, [.word 1]⟩ { program := .relay } = .ok r s' ∧
      Program.relay.Fits (r.getD ⟨⟨3⟩, [.word 1]⟩) := by
  have hchecked : ∀ d ∈ Program.relay.allDefns, Program.relay.checkDefn d = .ok () := by
    decide +kernel
  have hpure : Program.relay.PureTops := by simp [Program.PureTops, Program.relay]
  constructor
  · obtain ⟨r, s', hres, -, -, -, hruns⟩ := bypassGoto_faithful { program := .relay } hchecked hpure
      ⟨⟨0⟩, [.word 3, .word 7]⟩ ⟨_, rfl, rfl⟩
    obtain ⟨_, _, hres', hr⟩ := exists_ok
      (r := bypassGoto ⟨⟨0⟩, [.word 3, .word 7]⟩ { program := .relay })
      (fun r _ => r == some ⟨⟨2⟩, [.word 7, .word 3]⟩) (by decide +kernel)
    obtain rfl := eq_of_beq hr
    cases hres.symm.trans hres'
    obtain ⟨vs, m, hrun, htest⟩ := exists_ok
      (r := Run.evalCode .relay 4 0 (Run.idleAtStart .relay) [] (.jump ⟨⟨0⟩, [.word 3, .word 7]⟩)
        {})
      (fun vs _ => Value.observeAll vs == [.word 4]) (by decide +kernel)
    obtain ⟨m', hends, -, -⟩ := hruns (e := .returned vs) Program.settled_start hrun
    exact ⟨s', hres, vs, m', eq_of_beq htest, hends⟩
  · obtain ⟨r, s', hres, -, -, hfits, -⟩ := bypassGoto_faithful { program := .relay } hchecked hpure
      ⟨⟨3⟩, [.word 1]⟩ ⟨_, rfl, rfl⟩
    exact ⟨r, s', hres, hfits⟩

end MonadicIR
