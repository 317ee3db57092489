import MonadicIR.Proofs.StaysAccepted
import MonadicIR.Proofs.WriteOnly

namespace MonadicIR

open Program

namespace Program

variable {p q : Program} {d e : DefnId}

theorem grounded_iff : p.Grounded ↔
    ∀ d x, p.outline? d = some x → ∀ e ∈ x.body.refs, ∃ y, p.outline? e = some y := by
  constructor
  · intro h d x hx e he
    refine outline?_of_defines (h d (mem_allDefns.mpr (defines_of_outline? hx)) e ?_)
    exact mem_callees_iff.mpr (refers_iff.mpr ⟨x, hx, he⟩)
  · intro h d _ e he
    obtain ⟨x, hx, he⟩ := refers_iff.mp (mem_callees_iff.mp he)
    obtain ⟨y, hy⟩ := h d x hx e he
    exact defines_of_outline? hy

theorem knowsCopies_iff : p.KnowsCopies ↔ ∀ d x, p.outline? d = some x →
    ∀ e ∈ x.derived ++ x.replacement.toList, ∃ y, p.outline? e = some y := by
  constructor
  · intro h d x hx e he
    refine outline?_of_defines (h d (mem_allDefns.mpr (defines_of_outline? hx)) e ?_)
    simpa only [copies, hx, Option.elim_some] using he
  · intro h d hd e he
    obtain ⟨x, hx⟩ := outline?_of_defines (mem_allDefns.mp hd)
    simp only [copies, hx, Option.elim_some] at he
    obtain ⟨y, hy⟩ := h d x hx e he
    exact defines_of_outline? hy

theorem grounded_of_check (hnew : p.components.isEmpty = true) (h : p.check = .ok ()) :
    p.Grounded := by
  have hall : p.checkAll p.allDefns = .ok () := by
    simpa only [check, defns, hnew, if_true] using h
  refine grounded_iff.mpr fun d x hx e he => ?_
  let V : Vocabulary := ⟨fun _ => True, fun e => p.defines e = true, fun _ _ => trivial⟩
  have hd := mem_allDefns.mpr (defines_of_outline? hx)
  have hbody : x.body.Within V := within_of_checkDefn (fun _ h => h)
    (checkAll_eq_ok_iff.mp hall d hd) hx
  exact outline?_of_defines ((Code.within_iff.mp hbody).2 e he)

end Program

namespace Charter

variable {w : Realms} {p : Program}

theorem fitting_of_grounded (o : Options) (hgrounded : p.Grounded) (hcopies : p.KnowsCopies) :
    (flatly o True True).Fitting (p.realms Set.univ fun _ => Set.univ) p := by
  refine fitting_of_copies o hcopies (fun d x hx => ?_) fun _ _ _ _ _ _ => trivial
  refine Code.within_of_refs (fun _ _ => trivial) fun e he => ?_
  obtain ⟨y, hy⟩ := grounded_iff.mp hgrounded d x hx e he
  obtain ⟨m, hm⟩ := named_of_defines (defines_of_outline? hy)
  exact ⟨m, .inr hm, Set.subset_univ _⟩

theorem Fitting.knowsCopies {r : Charter} (h : r.Fitting w p) (hwhole : r.whole) (hflat : r.flat) :
    p.KnowsCopies := by
  refine knowsCopies_iff.mpr fun d x hx e he => ?_
  obtain ⟨l, hl⟩ := h.whole hwhole hx
  obtain ⟨y, hy, hfits⟩ := h.fits hl
  obtain rfl := Option.mem_unique hx hy
  obtain ⟨m, hm⟩ : ∃ m, w.of e = some m := by
    obtain he | he := List.mem_append.mp he
    · obtain ⟨m, hm, -⟩ := hfits.derived e he
      exact ⟨m, hm⟩
    · exact hfits.replacement hflat e (Option.mem_toList.mp he)
  obtain ⟨z, hz, -⟩ := h.fits hm
  exact ⟨z, hz⟩

end Charter

namespace Pass

variable {o : Options} {fuel : Nat} {s s' : Workbench} {d : DefnId}

theorem shake_ne_dangling : shake s ≠ .error (.dangling d) s' := by
  intro h
  obtain h | ⟨complaints, s1, -, h⟩ := bind_error_iff.mp h
  · obtain ⟨fault, hfault⟩ := edit_eq_error h
    cases hfault
  · split at h
    · obtain ⟨fault, hfault⟩ := edit_eq_error h
      cases hfault
    · cases h

theorem optimiseShaken_eq_dangling (h : optimise o fuel s = .error (.dangling d) s') :
    ∃ s1, shake s = .ok () s1 ∧ optimiseShaken o fuel s1 = .error (.dangling d) s' := by
  rw [optimise_eq] at h
  obtain hfault | ⟨_, s1, hcheck, hrest⟩ := bind_error_iff.mp h
  · obtain ⟨fault, hfault⟩ := edit_eq_error hfault
    cases hfault
  obtain ⟨-, rfl⟩ := look_eq_ok_iff.mp hcheck
  obtain hdangling | ⟨⟨⟩, s2, hshake, hrest⟩ := bind_error_iff.mp hrest
  · exact absurd hdangling shake_ne_dangling
  · exact ⟨s2, hshake, hrest⟩

/-- A grounded program stays grounded while it is optimised, so no reference is ever redirected to
a definition that is not there. -/
theorem throughout_grounded (o : Options) (fuel : Nat) {p : Program} (hgrounded : p.Grounded)
    (hcopies : p.KnowsCopies) :
    Throughout (fun q => q.Grounded ∧ q.KnowsCopies) (optimise o fuel) { program := p } ∧
      ∀ d s, optimise o fuel { program := p } ≠ .error (.dangling d) s := by
  have hfitting := Charter.fitting_of_grounded o hgrounded hcopies
  have hsafe {s : Workbench} (hs : shake { program := p } = .ok () s) :=
    hfitting.safe (s := { program := p }) (fun _ => trivial)
      (fun d hd => Charter.named_of_defines (List.mem_filter.mp hd).2) hs (fun _ => .inl trivial)
        fuel
  constructor
  · have hstart (q : Program) (hq : q.outline? = p.outline?) : q.Grounded ∧ q.KnowsCopies := by
      rw [grounded_iff, knowsCopies_iff, hq, ← grounded_iff,
        ← knowsCopies_iff]
      exact ⟨hgrounded, hcopies⟩
    rw [optimise_eq]
    refine .bind (.look _ (hstart p rfl)) fun _ s hs => ?_
    obtain ⟨-, rfl⟩ := look_eq_ok_iff.mp hs
    refine .bind (throughout_shake hstart) fun _ s' hs' => (hsafe hs').throughout.mono fun q hq =>
      ?_
    obtain ⟨w, hq⟩ := hq
    exact ⟨(hq.holds id).grounded trivial, (hq.holds id).knowsCopies trivial trivial⟩
  · intro d s hrun
    obtain ⟨s1, hs1, hrest⟩ := optimiseShaken_eq_dangling hrun
    exact (hsafe hs1).fails _ _ hrest trivial

/-- Two blocks that do the same, and a third one that nothing refers to. -/
def twins (target : BlockId) : Program where
  temps := ⟨.replicate 6 none⟩
  blocks := #[
    { params := [⟨1⟩]
      code := .bind [⟨2⟩] (.call ⟨⟨1⟩, [.temp ⟨1⟩]⟩) (.bind [⟨3⟩] (.call ⟨⟨2⟩, [.temp ⟨1⟩]⟩)
        (.done (.prim .add [.temp ⟨2⟩, .temp ⟨3⟩]))) },
    { params := [⟨4⟩]
      code := .done (.prim .add [.temp ⟨4⟩, .word 1]) },
    { params := [⟨5⟩]
      code := .done (.prim .add [.temp ⟨5⟩, .word 1]) },
    { params := []
      code := .done (.call ⟨target, []⟩) }]
  entrypoints := [.block ⟨0⟩]

def merges : Options where
  inlining := false
  flow := false

theorem throughout_grounded_twins :
    Throughout (fun q => q.Grounded ∧ q.KnowsCopies) (optimise merges 9) { program := twins ⟨3⟩ } ∧
      (∀ d s, optimise merges 9 { program := twins ⟨3⟩ } ≠ .error (.dangling d) s) ∧
      ∃ stats s block, optimise merges 9 { program := twins ⟨3⟩ } = .ok stats s ∧
        s.program.blocks[2]? = some block ∧ block.replacement = some ⟨1⟩ := by
  obtain ⟨hthroughout, hruns⟩ := throughout_grounded merges 9 (p := twins ⟨3⟩)
    (grounded_of_check rfl (by decide +kernel)) (by decide +kernel)
  obtain ⟨stats, s, hrun, htest⟩ := exists_ok (r := optimise merges 9 { program := twins ⟨3⟩ })
    (fun _ s => (s.program.blocks[2]?).any fun block : Block =>
      decide (block.replacement = some ⟨1⟩))
    (by cbv)
  simp only [Option.any_eq_true, decide_eq_true_eq] at htest
  obtain ⟨block, hblock, hreplaced⟩ := htest
  exact ⟨hthroughout, hruns, stats, s, block, hrun, hblock, hreplaced⟩

/-- Once the program has been shaken, the check does not see that the third block refers to nothing. -/
theorem optimise_dangling_twins : ∃ s s', shake { program := twins ⟨9⟩ } = .ok () s ∧
    s.program.check = .ok () ∧
    optimise merges 9 { program := s.program } = .error (.dangling (.block ⟨9⟩)) s' := by
  obtain ⟨⟨⟩, s, hs, hcheck⟩ := exists_ok (r := shake { program := twins ⟨9⟩ })
    (fun _ s => decide (s.program.check = .ok ())) (by cbv)
  obtain ⟨e, s', hrun, he⟩ := exists_error
    (r := optimise merges 9 { program := (endState (shake { program := twins ⟨9⟩ })).program })
    (fun e _ => decide (e = .dangling (.block ⟨9⟩))) (by cbv)
  rw [hs, of_decide_eq_true he] at hrun
  exact ⟨s, s', hs, of_decide_eq_true hcheck, hrun⟩

end Pass

end MonadicIR
