import MonadicIR.Proofs.Tidying

namespace MonadicIR

open Program

variable {p : Program} {d : DefnId}

namespace Program

/-- The constructors that are looked up beside a declared one are those of its type. -/
theorem RegularTypes.siblings (h : p.RegularTypes) {c : Ctor} (hc : p.Declares c) :
    ∃ siblings, p.siblings c = .ok siblings ∧ ∀ e, e ∈ siblings ↔ p.Declares e ∧ e.ty = c.ty := by
  obtain ⟨dt, hdt, htag⟩ := hc
  obtain ⟨-, -, hfamily⟩ := h.ctor hdt htag
  have hrange : c.inRange = true := by
    simpa [Ctor.inRange, hfamily] using (List.getElem?_eq_some_iff.mp htag).1
  have hsiblings : p.siblings c = .ok dt.ctors := by
    simp [Program.siblings, hrange, hdt, hfamily]
  refine ⟨dt.ctors, hsiblings, fun e => ⟨h.declares_sibling hsiblings, ?_⟩⟩
  rintro ⟨⟨dt', hdt', he⟩, hty⟩
  rw [hty, hdt] at hdt'
  obtain rfl := Option.some.inj hdt'
  exact List.mem_of_getElem? he

theorem mem_siblings {c e : Ctor} {siblings : List Ctor} (h : p.siblings c = .ok siblings)
    (he : p.Declares e) (hty : e.ty = c.ty) : e ∈ siblings := by
  obtain ⟨dt, hdt, htag⟩ := he
  unfold Program.siblings at h
  rw [← hty, hdt] at h
  split at h
  · simp only at h
    split at h
    · obtain rfl := Except.ok.inj h
      exact List.mem_of_getElem? htag
    · cases h
  · cases h

end Program

namespace Alts

variable {alts alts' : Alts} {reports : List String}

/-- Are all arms for declared constructors of one type? -/
def Typed (p : Program) (alts : Alts) : Prop :=
  ∀ arm ∈ alts.arms, p.FitsArms (alts.arms.map Arm.ctor) arm.ctor

/-- Is it a constructor of a data type that occurs in the arms? -/
def Concerns (p : Program) (alts : Alts) (c : Ctor) : Prop :=
  p.Declares c ∧ ∃ arm ∈ alts.arms, c.ty = arm.ctor.ty

theorem Typed.fits (h : alts.Typed p) {c : Ctor} (hc : alts.Concerns p c) :
    p.FitsArms (alts.arms.map Arm.ctor) c := by
  obtain ⟨hdecl, arm, harm, hty⟩ := hc
  exact ⟨hdecl, fun e he => hty.trans ((h arm harm).ty e he)⟩

/-- Alternatives that pass the check choose something for each constructor of their type. -/
theorem exists_select (hcheck : p.checkAlts d alts = .ok ()) {c : Ctor}
    (hc : p.FitsArms (alts.arms.map Arm.ctor) c) (hsome : alts.calls ≠ []) :
    ∃ call, alts.select c = some call := by
  obtain ⟨arms, _ | default⟩ := alts
  · cases arms with
    | nil => simp [calls] at hsome
    | cons first rest =>
      obtain ⟨siblings, hsiblings, hcover⟩ := (checkAlts_eq_ok_iff.mp hcheck).2.2 rfl first rfl
      obtain ⟨arm, harm, hsame⟩ :=
        hcover c (mem_siblings hsiblings hc.declared (hc.ty _ (by simp)))
      obtain ⟨taken, htaken⟩ := Option.isSome_iff_exists.mp
        (List.find?_isSome (p := fun arm : Arm => arm.ctor.same c) |>.mpr ⟨arm, harm, hsame⟩)
      exact ⟨taken.call, select_of_arm htaken none⟩
  · unfold select
    split
    · exact ⟨_, rfl⟩
    · exact ⟨default, rfl⟩

theorem checkAlts_of_covers (hregular : p.RegularTypes) {first : Arm} {rest : List Arm}
    {call : Call} (hcheck : p.checkAlts d ⟨first :: rest, some call⟩ = .ok ())
    (htyped : Typed p ⟨first :: rest, some call⟩)
    (hcovers : covers ⟨first :: rest, some call⟩ first.ctor.family = true) :
    p.checkAlts d ⟨first :: rest, none⟩ = .ok () := by
  obtain ⟨hrange, hpairs, -⟩ := checkAlts_eq_ok_iff.mp hcheck
  refine checkAlts_eq_ok_iff.mpr ⟨hrange, hpairs, ?_⟩
  rintro - _ ⟨⟩
  have hfirst := htyped first (.head ..)
  obtain ⟨siblings, hsiblings, hmem⟩ := hregular.siblings hfirst.declared
  refine ⟨siblings, hsiblings, fun c hc => ?_⟩
  obtain ⟨hdecl, hty⟩ := (hmem c).mp hc
  obtain ⟨arm, harm⟩ := mem_of_covers hcovers (hregular.tag_lt hdecl hfirst.declared hty)
    fun e he => hty.trans (hfirst.ty e he)
  exact ⟨arm, List.mem_of_find?_eq_some harm, List.find?_some (p := fun arm : Arm =>
    arm.ctor.same c) harm⟩

theorem checkAlts_of_missing (hregular : p.RegularTypes) {first : Arm} {rest : List Arm}
    {call : Call} (hcheck : p.checkAlts d ⟨first :: rest, some call⟩ = .ok ())
    (htyped : Typed p ⟨first :: rest, some call⟩)
    (hlen : (first :: rest).length + 1 = first.ctor.family) {missing : Ctor}
    (hdecl : p.Declares missing) (hty : missing.ty = first.ctor.ty)
    (hmissing : ∀ arm ∈ first :: rest, arm.ctor.same missing = false) :
    p.checkAlts d ⟨first :: rest ++ [⟨missing, call⟩], none⟩ = .ok () := by
  obtain ⟨hrange, hpairs, -⟩ := checkAlts_eq_ok_iff.mp hcheck
  have hfirst := htyped first (.head ..)
  refine checkAlts_eq_ok_iff.mpr ⟨?_, ?_, ?_⟩
  · refine List.forall_mem_append.mpr ⟨hrange, List.forall_mem_singleton.mpr ?_⟩
    simpa [Ctor.inRange] using hregular.tag_lt hdecl hdecl rfl
  · refine List.pairwise_append.mpr ⟨hpairs, List.pairwise_singleton .., fun arm harm x hx => ?_⟩
    obtain rfl := List.mem_singleton.mp hx
    exact hmissing arm harm
  · rintro - _ ⟨⟩
    obtain ⟨siblings, hsiblings, hmem⟩ := hregular.siblings hfirst.declared
    refine ⟨siblings, hsiblings, fun c hc => ?_⟩
    obtain ⟨hcdecl, hcty⟩ := (hmem c).mp hc
    by_cases harm : ∃ arm ∈ first :: rest, arm.ctor.same c = true
    · obtain ⟨arm, harm, hsame⟩ := harm
      exact ⟨arm, List.mem_append_left _ harm, hsame⟩
    · -- No arm is for it, so it is the constructor that was missing.
      have hsame := same_of_missing hregular (fun arm harm => (htyped arm harm).declared) hpairs
        hlen
        ⟨hcdecl, fun e he => hcty.trans (hfirst.ty e he)⟩ (by simpa using harm) hdecl hty hmissing
      exact ⟨⟨missing, call⟩, List.mem_append_right _ (List.mem_singleton_self _), hsame⟩

/-- Alternatives of one type are tightened without a fault, and remain good ones. -/
theorem exists_tighten (hregular : p.RegularTypes) (hcheck : p.checkAlts d alts = .ok ())
    (htyped : alts.default.isSome → alts.Typed p) :
    ∃ alts' reports, alts.tighten p = .ok (alts', reports) ∧ p.checkAlts d alts' = .ok () := by
  obtain ⟨_ | ⟨first, rest⟩, _ | call⟩ := alts
  · exact ⟨_, _, rfl, hcheck⟩
  · exact ⟨_, _, rfl, hcheck⟩
  · exact ⟨_, _, rfl, hcheck⟩
  replace htyped := htyped rfl
  unfold tighten
  dsimp only
  split
  · rename_i hcovers
    exact ⟨_, _, rfl, checkAlts_of_covers hregular hcheck htyped hcovers⟩
  · split
    · rename_i hlen
      obtain ⟨siblings, hsiblings, hmem⟩ :=
        hregular.siblings (htyped first (.head ..)).declared
      rw [hsiblings]
      simp only [bind, Except.bind]
      split
      · rename_i missing hfind
        obtain ⟨hdecl, hty⟩ := (hmem missing).mp (List.mem_of_find?_eq_some hfind)
        exact ⟨_, _, rfl, checkAlts_of_missing hregular hcheck htyped hlen hdecl hty
          (by simpa using List.find?_some hfind)⟩
      · exact ⟨_, _, rfl, hcheck⟩
    · exact ⟨_, _, rfl, hcheck⟩

theorem tighten_of_default_none (h : alts.default = none) : alts.tighten p = .ok (alts, []) := by
  obtain ⟨_ | ⟨first, rest⟩, default⟩ := alts
  · rfl
  · obtain rfl : default = none := h
    rfl

/-- Tighter alternatives choose the same calls. Where there is no default nothing was changed. -/
theorem select_tighten (hregular : p.RegularTypes) (hcheck : p.checkAlts d alts = .ok ())
    (htyped : alts.default.isSome → alts.Typed p) (h : alts.tighten p = .ok (alts', reports))
    {c : Ctor} (hc : alts.default.isSome → p.FitsArms (alts.arms.map Arm.ctor) c) :
    alts'.select c = alts.select c := by
  cases hdefault : alts.default with
  | none =>
    rw [tighten_of_default_none hdefault] at h
    rw [(Prod.mk.inj (Except.ok.inj h)).1]
  | some call =>
    have hsome : alts.default.isSome := by simp [hdefault]
    let σ : Signature :=
      { block := fun _ => none, closure := fun _ => none, top := fun _ => False, ctor := p.Declares
        temps := 1, temps_pos := Nat.one_pos }
    have hlegal : alts.Legal σ :=
      ⟨fun arm harm => (htyped hsome arm harm).declared, (checkAlts_eq_ok_iff.mp hcheck).2.1⟩
    obtain ⟨taken, htaken⟩ := exists_select hcheck (hc hsome) (by simp [calls, hdefault])
    obtain ⟨-, -, hsame⟩ := tighten_spec hregular h (fun _ => .rfl) hlegal
    rw [htaken]
    exact (hsame c taken (hc hsome) htaken).1

end Alts

/-- Simplifying a case whose alternatives pass the check succeeds. What is left of it is a case with
alternatives that pass the check and choose the same calls, or the one call that was always chosen. -/
theorem Code.simplifyCases_exact (p : Program) (hregular : p.RegularTypes) (d : DefnId) (a : Atom)
    (alts : Alts) (hcheck : p.checkAlts d alts = .ok ())
    (htyped : alts.default.isSome → alts.Typed p) :
    ∃ code reports, (Code.switch a alts).simplifyCases p = .ok (code, reports) ∧
      ((∃ alts', code = .switch a alts' ∧ p.checkAlts d alts' = .ok () ∧
          ∀ c, alts.Concerns p c → alts'.select c = alts.select c) ∨
        ∃ call, code = .jump call ∧
          ∀ c, p.FitsArms (alts.arms.map Arm.ctor) c → alts.select c = some call) := by
  obtain ⟨alts', reports, htighten, hcheck'⟩ := Alts.exists_tighten hregular hcheck htyped
  simp only [Code.simplifyCases, htighten, Bind.bind, Except.bind]
  cases honly : alts'.only? with
  | some call =>
    refine ⟨_, _, rfl, .inr ⟨call, rfl, fun c hc => ?_⟩⟩
    have hcalls : alts.calls ≠ [] := by
      intro hnil
      obtain ⟨harms, hdefault⟩ : alts.arms = [] ∧ alts.default = none := by
        simpa [Alts.calls] using hnil
      rw [Alts.tighten_of_default_none hdefault] at htighten
      obtain ⟨rfl, -⟩ := Prod.mk.inj (Except.ok.inj htighten)
      simp [Alts.only?, harms, hdefault] at honly
    obtain ⟨taken, htaken⟩ := Alts.exists_select hcheck hc hcalls
    have hsame := Alts.select_tighten hregular hcheck htyped htighten fun _ => hc
    rw [htaken, Alts.only?_eq_some honly (hsame.trans htaken)]
  | none =>
    refine ⟨_, _, rfl, .inl ⟨alts', rfl, hcheck', fun c hc => ?_⟩⟩
    exact Alts.select_tighten hregular hcheck htyped htighten fun hsome => (htyped hsome).fits hc

def palette : Program where
  datatypes := #[.declare 0 "Colour" [("Red", 0), ("Green", 0), ("Blue", 0)],
    .declare 1 "Light" [("On", 0), ("Off", 0)]]

theorem palette_regular : palette.RegularTypes := by
  intro i dt hdt
  obtain _ | _ | i := i
  · exact ⟨_, _, (Option.some.inj hdt).symm⟩
  · exact ⟨_, _, (Option.some.inj hdt).symm⟩
  · simp [palette] at hdt

def colours : Alts where
  arms := [⟨⟨0, 0, 0, 3, "Red"⟩, ⟨⟨1⟩, []⟩⟩, ⟨⟨0, 2, 0, 3, "Blue"⟩, ⟨⟨2⟩, []⟩⟩]
  default := some ⟨⟨3⟩, []⟩

theorem Code.simplifyCases_exact_colours :
    palette.RegularTypes ∧ palette.checkAlts (.block ⟨0⟩) colours = .ok () ∧ colours.Typed palette ∧
      ∃ code reports, (Code.switch (.temp ⟨1⟩) colours).simplifyCases palette =
        .ok (code, reports) ∧ ((∃ alts', code = .switch (.temp ⟨1⟩) alts' ∧
            palette.checkAlts (.block ⟨0⟩) alts' = .ok () ∧
            ∀ c, colours.Concerns palette c → alts'.select c = colours.select c) ∨
          ∃ call, code = .jump call ∧
            ∀ c, palette.FitsArms (colours.arms.map Arm.ctor) c →
              colours.select c = some call) := by
  have hcheck : palette.checkAlts (.block ⟨0⟩) colours = .ok () := by decide
  have htyped : colours.Typed palette := by
    intro arm harm
    have hdecl : ∀ arm ∈ colours.arms, palette.Declares arm.ctor := by decide
    have hty : ∀ arm ∈ colours.arms, ∀ c ∈ colours.arms.map Arm.ctor, arm.ctor.ty = c.ty := by
      decide
    exact ⟨hdecl arm harm, hty arm harm⟩
  exact ⟨palette_regular, hcheck, htyped, Code.simplifyCases_exact palette palette_regular
    (.block ⟨0⟩) (.temp ⟨1⟩) colours hcheck fun _ => htyped⟩

/-- Arms of two types, whose tags together are those of the first one's type. -/
def mixture : Alts where
  arms := [⟨⟨1, 0, 0, 2, "On"⟩, ⟨⟨1⟩, []⟩⟩, ⟨⟨0, 1, 0, 3, "Green"⟩, ⟨⟨2⟩, []⟩⟩]
  default := some ⟨⟨3⟩, []⟩

/-- The check accepts arms of several types. The default is dropped all the same, and nothing is
left for a light that is off. -/
theorem Code.simplifyCases_mixture : palette.RegularTypes ∧
    palette.checkAlts (.block ⟨0⟩) mixture = .ok () ∧
    ∃ alts' reports,
      (Code.switch (.temp ⟨1⟩) mixture).simplifyCases palette =
        .ok (.switch (.temp ⟨1⟩) alts', reports) ∧
      palette.checkAlts (.block ⟨0⟩) alts' = .error (.uncovered "Off" (.block ⟨0⟩)) ∧
      mixture.Concerns palette ⟨1, 1, 0, 2, "Off"⟩ ∧
      mixture.select ⟨1, 1, 0, 2, "Off"⟩ = some ⟨⟨3⟩, []⟩ ∧ alts'.select ⟨1, 1, 0, 2, "Off"⟩ =
        none :=
  ⟨palette_regular, by decide, ⟨mixture.arms, none⟩, _, rfl, by decide, by
    refine ⟨by decide, ⟨⟨1, 0, 0, 2, "On"⟩, ⟨⟨1⟩, []⟩⟩, ?_, rfl⟩
    simp [mixture], by decide, by decide⟩

end MonadicIR
