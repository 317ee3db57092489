import MonadicIR.Optimiser.Pipeline
import MonadicIR.Proofs.Inlining
import MonadicIR.Proofs.Standards

namespace MonadicIR

/-- The rules of the machine, where a case may only meet values of the type of its arms. -/
def Rules.typed : Rules :=
  { Rules.machine with fits := fun ctors c => ∀ d ∈ ctors, c.ty = d.ty }

theorem Rules.typed_le_machine : Rules.typed.Le .machine :=
  ⟨le_rfl, id, fun _ => trivial⟩

namespace Program.Lawful

variable {p : Program} (h : p.Lawful)

include h

theorem exists_role_block {b : BlockId} (hret : p.Retained (.block b)) :
    ∃ role, h.roles.block b = some role := by
  obtain ⟨cs, hcs⟩ := h.current.callees hret
  obtain ⟨block, hblock⟩ := defines_block_iff.mp (defines_of_callees hcs)
  exact ⟨.original, by simp [roles, signature, hret, hblock]⟩

theorem exists_role_closure {k : ClosureId} (hret : p.Retained (.closure k)) :
    ∃ role, h.roles.closure k = some role := by
  obtain ⟨cs, hcs⟩ := h.current.callees hret
  obtain ⟨closure, hclosure⟩ := defines_closure_iff.mp (defines_of_callees hcs)
  exact ⟨.original, by simp [roles, signature, hret, hclosure]⟩

theorem exists_has_top (htops : ∀ t, p.Retained (.top t) → ∃ vs, p.HasTop t vs) (env : Env)
    {t : TopRef} (ht : h.sig.top t) : ∃ v, (Atom.top t).Has p.HasTop env v := by
  obtain ⟨hret, top, htop, hlt⟩ := ht
  obtain ⟨vs, hvs⟩ := htops t.top hret
  obtain ⟨_ | height, hheight⟩ := hvs
  · exact hheight.elim
  · obtain ⟨_, htop', hlen, -⟩ := id hheight
    obtain rfl := Option.mem_unique htop htop'
    exact ⟨vs[t.index], vs, ⟨_, hheight⟩, List.getElem?_eq_getElem (hlen ▸ hlt)⟩

end Program.Lawful

namespace Pass

theorem inlining_faithful {s s' : Workbench} {o : Options} {fuel : Nat} (h : s.program.Lawful)
    (hregular : s.program.RegularTypes) (hpure : s.program.PureTops) (hplain : s.program.Underived)
    (htops : ∀ t, s.program.Retained (.top t) → ∃ vs, s.program.HasTop t vs)
    (hpass : inlining o fuel s = .ok () s') : ∃ roles, h.roles.Le roles ∧
      Faithful (h.standard .typed s.program.FitsArms) roles (fun _ => False) s'.program := by
  simp only [inlining, bind_ok_iff, edit_eq_ok_iff, get_ok_iff, exists_unit,
    workOn_eq_ok_iff] at hpass
  obtain ⟨_, ⟨q, hq, rfl⟩, _, _, ⟨rfl, rfl⟩, s2, heach, rfl⟩ := hpass
  obtain ⟨f, rfl, hf⟩ := h.current.halted_of_returnAnalysis hq
  have hfaithful : Faithful (h.standard .typed s.program.FitsArms) h.roles (fun _ => False)
      (s.program.noted f) :=
    h.faithful (fun _ _ hc hty => ⟨hc, hty⟩) hpure hplain fun b hret hfb _ _ _ _ _ _ hrun =>
      hf hret hfb hrun
  have hfits (ctors : List Ctor) (c : Ctor) :
      s.program.FitsArms ctors c ↔ (s.program.noted f).FitsArms ctors c :=
    ⟨fun hc => ⟨hc.declared, hc.ty⟩, fun hc => ⟨hc.declared, hc.ty⟩⟩
  obtain ⟨roles, hadvance⟩ := forEach_inlineDefn_spec (s := { s with program := s.program.noted f })
    (fun r env hr => h.exists_has_top htops env hr) hfaithful hregular hfits
    (fun b hb => h.exists_role_block hb) (fun k hk => h.exists_role_closure hk) heach
  exact ⟨roles, hadvance.le, hadvance.faithful⟩

/-- Inlining keeps what can be observed of the runs of entrypoints. -/
theorem inlining_preserves (s s' : Workbench) (o : Options) (fuel : Nat) (h : s.program.Lawful)
    (hregular : s.program.RegularTypes) (hpure : s.program.PureTops) (hplain : s.program.Underived)
    (htops : ∀ t, s.program.Retained (.top t) → ∃ vs, s.program.HasTop t vs)
    (hpass : inlining o fuel s = .ok () s') (b : BlockId) (hb : .block b ∈ s.program.entrypoints)
    (args : List Word) (limit : Nat) (e : Result) (w : World)
    (hrun : s.program.Runs .typed Run.depthLimit limit b (args.map .word) {} e w) :
    s.program.run (.block b) args limit = .ok (e.outcome w) ∧
      ∃ n, ∀ m, n ≤ m → s'.program.run (.block b) args m = .ok (e.outcome w) := by
  have hends : (e.outcome w).termination ≠ .diverged := by cases e <;> simp [Ending.outcome]
  constructor
  · rw [Program.run_block, Program.runNested_eq_ok_iff hpure hends]
    exact ⟨e, w, hrun.of_rules Rules.typed_le_machine, rfl⟩
  · obtain ⟨roles, hle, hfaithful⟩ := inlining_faithful h hregular hpure hplain htops hpass
    exact h.run hfaithful hle hb hrun

end Pass

namespace Program

/-- A closure is fetched, unless the program halts, and entered with a top-level that is computed
from the operand. -/
def errand (operand : Atom) : Program where
  temps := ⟨.replicate 12 none⟩
  blocks := #[
    { params := [⟨1⟩]
      code := .bind [] (.call ⟨⟨1⟩, [.temp ⟨1⟩]⟩) (.done (.closure ⟨0⟩ []))
      notes := { occurs := 2, calls := 2, component := some 4 } },
    { params := [⟨2⟩]
      code := .bind [⟨3⟩] (.prim .eq [.temp ⟨2⟩, .word 0])
        (.branch (.temp ⟨3⟩) ⟨⟨2⟩, []⟩ ⟨⟨3⟩, []⟩)
      notes := { occurs := 1, calls := 1, component := some 2 } },
    { params := []
      code := .done (.prim .halt [])
      notes := { occurs := 1, component := some 0 } },
    { params := []
      code := .done (.ret [])
      notes := { occurs := 1, component := some 1 } },
    { params := [⟨4⟩]
      code := .bind [⟨5⟩] (.call ⟨⟨0⟩, [.temp ⟨4⟩]⟩) (.done (.enter (.temp ⟨5⟩) [.top ⟨⟨0⟩, 0⟩]))
      notes := { occurs := 1, component := some 6 } },
    { params := [⟨7⟩]
      code := .bind [⟨8⟩] (.call ⟨⟨0⟩, [.temp ⟨7⟩]⟩) (.done (.enter (.temp ⟨8⟩) [.word 3]))
      notes := { occurs := 1, component := some 7 } },
    { params := [⟨9⟩]
      code := .bind [⟨10⟩] (.prim .eq [.temp ⟨9⟩, .word 0])
        (.branch (.temp ⟨10⟩) ⟨⟨4⟩, [.temp ⟨9⟩]⟩ ⟨⟨5⟩, [.temp ⟨9⟩]⟩)
      notes := { occurs := 1, component := some 8, entrypoint := true } }]
  closures := #[
    { stored := []
      params := [⟨6⟩]
      tail := .ret [.temp ⟨6⟩]
      notes := { occurs := 1, component := some 3 } }]
  tops := #[
    { lhs := [{ name := "x" }]
      tail := .prim .add [operand, .word 1]
      notes := { occurs := 1, component := some 5 } }]
  entrypoints := [.block ⟨6⟩]
  components := #[⟨[.block ⟨2⟩], false, []⟩, ⟨[.block ⟨3⟩], false, []⟩,
    ⟨[.block ⟨1⟩], false, [0, 1]⟩,
    ⟨[.closure ⟨0⟩], false, []⟩, ⟨[.block ⟨0⟩], false, [2, 3]⟩, ⟨[.top ⟨0⟩], false, []⟩,
    ⟨[.block ⟨4⟩], false, [4, 5]⟩, ⟨[.block ⟨5⟩], false, [4]⟩, ⟨[.block ⟨6⟩], false, [6, 7]⟩]

/-- Whatever the operand is, the program may halt before it gets to the top-level. -/
theorem errand_halts (operand : Atom) :
    (errand operand).Runs .typed Run.depthLimit 20 ⟨6⟩ [.word 0] {} .halted {} := by
  -- the entrypoint compares its argument and goes on to the block that fetches the closure
  refine ⟨5, _, rfl, rfl, False.elim, .nothing, .inr ⟨[.flag true], {}, 19, by decide,
    ⟨rfl, [.word 0, .word 0], .cons rfl (.cons rfl .nil), rfl⟩, rfl, ?_⟩⟩
  refine ⟨true, .block 18 0, rfl, .inl (by decide), [.word 0], 18, .cons rfl .nil, rfl, ?_⟩
  refine ⟨_, rfl, rfl, False.elim, .block 17 0, .inl ⟨.inl (by decide), rfl, 999, rfl, [.word 0],
    17, .cons rfl .nil, rfl, ?_⟩⟩
  -- to fetch the closure another comparison is made, which leads to the block that halts
  refine ⟨_, rfl, rfl, False.elim, .block 16 0, .inl ⟨.inl (by decide), rfl, 998, rfl, [.word 0],
    16, .cons rfl .nil, rfl, ?_⟩⟩
  refine ⟨_, rfl, rfl, False.elim, .nothing, .inr ⟨[.flag true], {}, 15, by decide,
    ⟨rfl, [.word 0, .word 0], .cons rfl (.cons rfl .nil), rfl⟩, rfl, ?_⟩⟩
  refine ⟨true, .block 14 0, rfl, .inl (by decide), [], 14, .nil, rfl, ?_⟩
  exact ⟨_, rfl, rfl, .nothing, Nat.zero_lt_succ _, rfl, [], .nil, rfl⟩

theorem errand_regular (operand : Atom) : (errand operand).RegularTypes := by
  simp [RegularTypes, errand]

end Program

namespace Pass

open Program

theorem inlining_preserves_errand : (errand (.word 1)).Lawful ∧ (errand (.word 1)).Underived ∧
    ∃ s', inlining { inlineLines := 0 } 10 { program := errand (.word 1) } = .ok () s' ∧
      ∃ n, ∀ m, n ≤ m → s'.program.run (.block ⟨6⟩) [0] m = .ok ⟨[], .halted⟩ := by
  have hlawful : (errand (.word 1)).Lawful :=
    ⟨by decide +kernel,
      ⟨(errand (.word 1)).components.toList, by decide +kernel, by decide +kernel⟩,
      by decide +kernel, by decide +kernel, by decide +kernel⟩
  have hpure : (errand (.word 1)).PureTops := by
    simp [PureTops, errand, Tail.isPure, Tail.purity, Prim.purity, Purity.isPure]
  have hplain : (errand (.word 1)).Underived := by decide +kernel
  have htops (t : TopId) (ht : (errand (.word 1)).Retained (.top t)) :
      ∃ vs, (errand (.word 1)).HasTop t vs := by
    obtain rfl : t = ⟨0⟩ := by simpa [Retained, Component.allMembers, errand] using ht
    exact ⟨[.word 2], 1, _, rfl, rfl, fun w => ⟨[.word 1, .word 1], .cons rfl (.cons rfl .nil),
      rfl⟩⟩
  obtain ⟨_, s', hpass, -⟩ := exists_ok
    (r := inlining { inlineLines := 0 } 10 { program := errand (.word 1) }) (fun _ _ => true)
    (by decide +kernel)
  exact ⟨hlawful, hplain, s', hpass,
    (inlining_preserves _ s' _ 10 hlawful (errand_regular _) hpure hplain
    htops hpass ⟨6⟩ (by decide +kernel) [0] 20 .halted {} (errand_halts _)).2⟩

/-- Where a top-level has no value, the enter that is pushed into a callee asks for it too early. -/
theorem inlining_breaks_errand : (errand (.flag true)).Lawful ∧ (errand (.flag true)).RegularTypes ∧
    (errand (.flag true)).PureTops ∧ (errand (.flag true)).Underived ∧
    (∃ u s, (errand (.flag true)).shake = .ok u s ∧ s.program = errand (.flag true)) ∧
    (errand (.flag true)).Runs .typed Run.depthLimit 20 ⟨6⟩ [.word 0] {} .halted {} ∧
    ∃ u s', inlining { inlineLines := 0 } 10 { program := errand (.flag true) } = .ok u s' ∧
      s'.program.run (.block ⟨6⟩) [0] 20 = .error (.badPrim .add [.flag true, .word 1]) := by
  refine ⟨⟨by decide +kernel, ⟨(errand (.flag true)).components.toList, by decide +kernel,
    by decide +kernel⟩, by decide +kernel, by decide +kernel, by decide +kernel⟩,
    errand_regular _, ?_, by decide +kernel, ?_, errand_halts _, ?_⟩
  · simp [PureTops, errand, Tail.isPure, Tail.purity, Prim.purity, Purity.isPure]
  · simpa using exists_ok (r := (errand (.flag true)).shake)
      (fun _ s => decide (s.program = errand (.flag true))) (by decide +kernel)
  · simpa using exists_ok
      (r := inlining { inlineLines := 0 } 10 { program := errand (.flag true) })
      (fun _ s' => decide (s'.program.run (.block ⟨6⟩) [0] 20 =
        .error (.badPrim .add [.flag true, .word 1]))) (by decide +kernel)

end Pass

end MonadicIR
