import MonadicIR.Proofs.PipelineRealms
import MonadicIR.Proofs.Standards

namespace MonadicIR

open Component

namespace Program

variable {p : Program} {cs : List Component} {d e : DefnId}

/-- Has no definition been merged into another one? -/
def Unmerged (p : Program) : Prop :=
  (∀ block ∈ p.blocks, block.replacement = none) ∧ ∀ closure ∈ p.closures,
    closure.replacement = none

instance (p : Program) : Decidable p.Unmerged :=
  inferInstanceAs (Decidable ((∀ block ∈ p.blocks, block.replacement = none) ∧
    ∀ closure ∈ p.closures, closure.replacement = none))

theorem Underived.outline (h : p.Underived) {x : Outline} (hx : p.outline? d = some x) :
    x.derived = [] := by
  cases d <;> obtain ⟨y, hy, rfl⟩ := Option.map_eq_some_iff.mp hx
  · exact List.map_eq_nil_iff.mpr (h.1 y (Array.mem_of_getElem? hy))
  · exact List.map_eq_nil_iff.mpr (h.2 y (Array.mem_of_getElem? hy))
  · rfl

theorem Unmerged.outline (h : p.Unmerged) {x : Outline} (hx : p.outline? d = some x) :
    x.replacement = none := by
  cases d <;> obtain ⟨y, hy, rfl⟩ := Option.map_eq_some_iff.mp hx
  · exact Option.map_eq_none_iff.mpr (h.1 y (Array.mem_of_getElem? hy))
  · exact Option.map_eq_none_iff.mpr (h.2 y (Array.mem_of_getElem? hy))
  · rfl

theorem isAllocator_of_cycle (hcs : ofRoots p p.roots = .ok cs) (hok : p.complaints cs = [])
    {t : TopId} (ht : .top t ∈ allMembers cs)
    (hcycle : Relation.TransGen p.Refers (.top t) (.top t)) {top : TopLevel}
    (htop : p.tops[t.index]? = some top) : top.tail.isAllocator = true := by
  obtain ⟨c, hc, hmem⟩ := List.mem_flatMap.mp ht
  have hrec := ((decomposition_ofRoots hcs).recursive c hc).mpr ⟨_, hmem, hcycle⟩
  have hlegal := (of_complaints_eq_nil hok).2.2 c hc
  by_contra hnot
  refine absurd hlegal ?_
  unfold illegalNames?
  rw [if_pos]
  · simp
  · refine (Bool.and_eq_true _ _).mpr ⟨hrec, List.any_eq_true.mpr ⟨top, ?_, by simpa using hnot⟩⟩
    exact List.mem_filterMap.mpr ⟨_, hmem, htop⟩

/-- What each definition leads to at the start is all that it may ever lead to. -/
def charter (p : Program) (o : Options) : Charter where
  options := o
  wildcard := True
  below t := {e | Relation.TransGen p.Refers (.top t) e}
  allocates t := Relation.TransGen p.Refers (.top t) (.top t)
  flat := False
  below_of_flat h := h.elim
  not_allocates_of_flat h := h.elim
  legal _ _ h := h

end Program

namespace Charter

variable {r : Charter} {p : Program} {cs : List Component} {reach : DefnId → Set DefnId}

/-- What is retained of an accepted program fits into realms that follow its references. -/
theorem fitting_of_components (hcs : ofRoots p p.roots = .ok cs) (hplain : p.Underived)
    (hunmerged : p.Unmerged) (hwild : r.wildcard)
    (hreach : ∀ d e o, p.Refers d e → reach e ⊆ r.inner ⟨reach d, o⟩ d)
    (htops : ∀ t, .top t ∈ reach (.top t) ∧ r.below t ⊆ reach (.top t))
    (hflat : r.flat → ∀ d, reach d = Set.univ)
    (halloc : ∀ t top, .top t ∈ allMembers cs → p.tops[t.index]? = some top →
      r.allocates t → top.tail.isAllocator = true) (hbound : ¬r.free := by exact id)
    (hwhole : ¬r.whole := by exact id) :
    r.Fitting (p.realms {d | d ∈ allMembers cs} reach) p := by
  refine ⟨hbound, @fun d l hl => ?_, @fun t l hl => ?_, fun hf d l hl => ?_, fun h =>
    absurd h hwhole⟩
  all_goals obtain ⟨hd, x, hx, rfl⟩ := Program.of_realms_eq_some.mp hl
  · refine ⟨x, hx, rfl, ?_, fun t ht _ => hwild, fun e he => ?_, fun _ e he => ?_, ?_⟩
    · refine Code.within_of_refs (fun t _ => hwild) fun e he => ?_
      have hde := Program.refers_iff.mpr ⟨x, hx, he⟩
      -- What is referred to is retained, too, and so is there.
      have hclosed := (allMembers_ofRoots hcs).2.2
      obtain ⟨callees, hcallees, hall⟩ := hclosed d hd
      obtain ⟨_, hcallees', he'⟩ := hde
      obtain rfl := Except.ok.inj (hcallees.symm.trans hcallees')
      obtain ⟨_, hdefined, -⟩ := hclosed e (hall e he')
      obtain ⟨y, hy⟩ := Program.outline?_of_defines (Program.defines_of_callees hdefined)
      exact ⟨_, .inr <| Program.of_realms_eq_some.mpr ⟨hall e he', y, hy, rfl⟩,
        hreach d e _ ⟨_, hcallees, he'⟩⟩
    · rw [hplain.outline hx] at he
      cases he
    · rw [hunmerged.outline hx] at he
      cases he
    · rintro t rfl hmust
      obtain ⟨top, htop, rfl⟩ := Option.map_eq_some_iff.mp hx
      exact ⟨top.tail, rfl, halloc t top hd htop hmust⟩
  · exact htops t
  · exact hflat hf d

end Charter

theorem Pass.optimiseShaken_eq_rejected {o : Options} {fuel : Nat} {s0 s s' : Workbench} {u : Unit}
    {complaints : List Complaint} (hshake : shake s0 = .ok u s)
    (h : optimise o fuel s0 = .error (.rejected complaints) s') :
    optimiseShaken o fuel s = .error (.rejected complaints) s' := by
  rw [optimise_eq] at h
  cases hcheck : look Program.check s0 with
  | ok v s1 =>
    obtain ⟨-, rfl⟩ := look_eq_ok_iff.mp hcheck
    simpa only [bind, EStateM.bind, hcheck, hshake] using h
  | error e s1 =>
    obtain ⟨fault, rfl⟩ := edit_eq_error hcheck
    simp only [bind, EStateM.bind, hcheck] at h
    cases h

namespace Program

/-- After its first shake, a run is not rejected as long as no definitions are merged. If they are,
it can only be rejected for recursion among top-levels, and never for its entrypoints. -/
theorem optimise_stays_accepted {p : Program} (hplain : p.Underived) (hunmerged : p.Unmerged)
    {s : Workbench} (hshake : p.shake = .ok () s) (o : Options) (fuel : Nat) :
    (o.merging = false → ∀ complaints s', p.optimise o fuel ≠ .error (.rejected complaints) s') ∧
      ∀ complaints s', p.optimise o fuel = .error (.rejected complaints) s' →
        ∀ c ∈ complaints, ∃ names, c = .illegalRecursion names := by
  obtain ⟨cs, hcs, hok, -⟩ := Pass.sameButNotes_of_shake hshake
  have hroots (reach : DefnId → Set DefnId) :
      ∀ d ∈ p.roots, ∃ l, (p.realms {d | d ∈ allMembers cs} reach).of d = some l := by
    intro d hd
    obtain ⟨x, hx⟩ := outline?_of_defines (List.mem_filter.mp hd).2
    exact ⟨_, of_realms_eq_some.mpr ⟨(allMembers_ofRoots hcs).2.1 d hd, x, hx, rfl⟩⟩
  refine ⟨fun hmerging complaints s' hrejected => ?_, fun complaints s' hrejected => ?_⟩
  · -- What a definition leads to now is all that it may lead to later.
    have hfitting : (p.charter o).Fitting
        (p.realms {d | d ∈ allMembers cs} fun d => {e | p.LeadsTo d e}) p := by
      refine Charter.fitting_of_components hcs hplain hunmerged trivial (fun d e _ hde e' he' => ?_)
        (fun t => ⟨.refl, fun e he => he.to_reflTransGen⟩) (fun h => h.elim)
        fun t top ht htop hcycle => isAllocator_of_cycle hcs hok ht hcycle htop
      cases d with
      | top t => exact .head' hde he'
      | block _ | closure _ => exact .head hde he'
    have hsafe := hfitting.safe (fun _ => trivial) (hroots _) hshake (by simp [charter, hmerging])
      fuel
    obtain hfree | hflat := hsafe.fails _ _ (Pass.optimiseShaken_eq_rejected hshake hrejected) _ rfl
    · exact hfree
    · exact hflat.1
  · have hfitting : (Charter.flatly o True).Fitting
        (p.realms {d | d ∈ allMembers cs} fun _ => Set.univ) p := by
      refine Charter.fitting_of_components hcs hplain hunmerged trivial (fun d _ _ _ => ?_)
        (fun _ => ⟨trivial, subset_rfl⟩) (fun _ _ => rfl) fun _ _ _ _ h => h.elim
      cases d <;> exact subset_rfl
    have hsafe := hfitting.safe (fun _ => trivial) (hroots _) hshake (fun _ => .inl trivial) fuel
    exact ((hsafe.fails _ _ (Pass.optimiseShaken_eq_rejected hshake hrejected) _ rfl).resolve_left
      id).2

/-- Two pairs that hold each other, and hold the same. -/
def entwined : Program where
  temps := ⟨#[none]⟩
  datatypes := #[⟨"P", [⟨0, 0, 2, 1, "Pair"⟩]⟩]
  blocks := #[
    { params := []
      code := .done (.ret [.top ⟨⟨0⟩, 0⟩]) }]
  tops := #[
    { lhs := [⟨"a", none⟩]
      tail := .data ⟨0, 0, 2, 1, "Pair"⟩ [.top ⟨⟨0⟩, 0⟩, .top ⟨⟨1⟩, 0⟩] },
    { lhs := [⟨"b", none⟩]
      tail := .data ⟨0, 0, 2, 1, "Pair"⟩ [.top ⟨⟨0⟩, 0⟩, .top ⟨⟨1⟩, 0⟩] }]
  entrypoints := [.block ⟨0⟩]

theorem exists_shake_entwined : ∃ s, entwined.shake = .ok () s := by
  obtain ⟨⟨⟩, s, hs, -⟩ := exists_ok (r := entwined.shake) (fun _ _ => true) (by cbv)
  exact ⟨s, hs⟩

theorem optimise_stays_accepted_entwined :
    (∀ fuel complaints s', entwined.optimise { merging := false } fuel ≠ .error
      (.rejected complaints) s') ∧
      ∃ stats s, entwined.optimise { merging := false } 9 = .ok stats s := by
  obtain ⟨s, hs⟩ := exists_shake_entwined
  refine ⟨fun fuel => (optimise_stays_accepted (by decide) (by decide) hs _ fuel).1 rfl, ?_⟩
  obtain ⟨stats, s', hrun, -⟩ := exists_ok (r := entwined.optimise { merging := false } 9)
    (fun _ _ => true) (by cbv)
  exact ⟨stats, s', hrun⟩

/-- One of the pairs becomes a reference to the other one, which still holds it. -/
theorem optimise_rejects_entwined : entwined.check = .ok () ∧ (∃ s, entwined.shake = .ok () s) ∧
    ∃ s, entwined.optimise { inlining := false, flow := false } 9 =
      .error (.rejected [.illegalRecursion ["a", "b"]]) s := by
  refine ⟨by decide +kernel, exists_shake_entwined, ?_⟩
  obtain ⟨e, s, hrun, htest⟩ := exists_error
    (r := entwined.optimise { inlining := false, flow := false } 9)
    (fun e _ => decide (e = .rejected [.illegalRecursion ["a", "b"]])) (by cbv)
  exact ⟨s, by rw [hrun, of_decide_eq_true htest]⟩

end Program

end MonadicIR
