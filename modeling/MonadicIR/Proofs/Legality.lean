import MonadicIR.Scope
import MonadicIR.Proofs.Checked

namespace MonadicIR

/-- What code may refer to. -/
structure Signature where
  /-- The number of parameters of a block. -/
  block : BlockId → Option Nat
  /-- The number of stored fields of a closure. -/
  closure : ClosureId → Option Nat
  top : TopRef → Prop
  ctor : Ctor → Prop
  /-- The number of variables that were allocated. -/
  temps : Nat
  temps_pos : 0 < temps

namespace Signature

/-- All that the first signature has is in the second. -/
structure Le (σ τ : Signature) : Prop where
  block : ∀ {b n}, σ.block b = some n → τ.block b = some n
  closure : ∀ {k n}, σ.closure k = some n → τ.closure k = some n
  top : ∀ {r}, σ.top r → τ.top r
  ctor : ∀ {c}, σ.ctor c → τ.ctor c
  temps : σ.temps ≤ τ.temps

theorem Le.refl (σ : Signature) : σ.Le σ := ⟨id, id, id, id, le_rfl⟩

theorem Le.trans {σ τ υ : Signature} (h : σ.Le τ) (h' : τ.Le υ) : σ.Le υ :=
  ⟨h'.block ∘ h.block, h'.closure ∘ h.closure, h'.top ∘ h.top, h'.ctor ∘ h.ctor,
    le_trans h.temps h'.temps⟩

end Signature

section Legal

variable (σ : Signature) (scope : List Temp)

def Atom.Legal : Atom → Prop
  | temp t => t ∈ scope
  | top r => σ.top r
  | word _ | flag _ | external _ => True

/-- Are there as many operands as the tail needs? -/
def Tail.Shaped : Tail → Prop
  | call c => σ.block c.target = some c.args.length
  | closure k args => σ.closure k = some args.length
  | data c args => σ.ctor c ∧ args.length = c.arity
  | sel c _ _ => σ.ctor c
  | ret _ | enter .. | prim .. => True

structure Tail.Legal (t : Tail) : Prop where
  atoms : ∀ a ∈ t.atoms, a.Legal σ scope
  shaped : t.Shaped σ

abbrev Call.Legal (c : Call) : Prop := (Tail.call c).Legal σ scope

/-- The arms are for different constructors. -/
structure Alts.Legal (alts : Alts) : Prop where
  ctors : ∀ arm ∈ alts.arms, σ.ctor arm.ctor
  distinct : alts.arms.Pairwise fun x y => x.ctor.same y.ctor = false

end Legal

/-- May these variables be bound here? -/
structure Binders (σ : Signature) (scope vars : List Temp) : Prop where
  nodup : (named vars).Nodup
  new : ∀ v ∈ named vars, v ∉ scope
  allocated : ∀ v ∈ named vars, v.index < σ.temps

def Code.Legal (σ : Signature) : List Temp → Code → Prop
  | scope, done t => t.Legal σ scope
  | scope, bind vars t rest =>
    t.Legal σ scope ∧ Binders σ scope vars ∧ rest.Legal σ (scope ++ named vars)
  | scope, assert a c rest => a.Legal σ scope ∧ σ.ctor c ∧ rest.Legal σ scope
  | scope, branch test yes no => test.Legal σ scope ∧ yes.Legal σ scope ∧ no.Legal σ scope
  | scope, switch a alts =>
    a.Legal σ scope ∧ (∀ c ∈ alts.calls, c.Legal σ scope) ∧ alts.Legal σ

/-- Calls of the same alternatives, related one by one. The relation is told for which constructor
a call is taken, unless it is the default. -/
structure Alts.Related (R : Option Ctor → Call → Call → Prop) (alts alts' : Alts) : Prop where
  arms : List.Forall₂ (fun x y => y.ctor = x.ctor ∧ R (some x.ctor) x.call y.call) alts.arms
    alts'.arms
  default : Option.Rel (R none) alts.default alts'.default

namespace Alts.Related

variable {R : Option Ctor → Call → Call → Prop} {alts alts' : Alts}

variable (h : Related R alts alts')

include h

theorem imp {S : Option Ctor → Call → Call → Prop} (hRS : ∀ ⦃o c c'⦄, R o c c' → S o c c') :
    Related S alts alts' := by
  refine ⟨h.arms.imp fun _ _ hxy => ⟨hxy.1, hRS hxy.2⟩, ?_⟩
  have hdefault := h.default
  generalize alts.default = d, alts'.default = d' at hdefault ⊢
  cases hdefault with
  | none => exact .none
  | some hc => exact .some (hRS hc)

theorem ctors : alts'.arms.map Arm.ctor = alts.arms.map Arm.ctor := by
  have harms := h.arms
  generalize alts.arms = arms, alts'.arms = arms' at harms
  induction harms with
  | nil => rfl
  | cons hx _ ih => rw [List.map_cons, List.map_cons, ih, hx.1]

theorem select {c : Ctor} {taken : Call} (hsel : alts.select c = some taken) :
    ∃ o taken', alts'.select c = some taken' ∧ R o taken taken' ∧ ∀ d ∈ o, d.same c = true := by
  obtain ⟨arms, default⟩ := alts
  obtain ⟨arms', default'⟩ := alts'
  obtain ⟨harms, hdefault⟩ := h
  simp only at harms hdefault
  induction harms with
  | nil =>
    cases hdefault with
    | none => cases hsel
    | @some c c' hc =>
      obtain rfl : c = taken := Option.some.inj hsel
      exact ⟨none, c', rfl, hc, by simp⟩
  | @cons x y arms arms' hxy _ ih =>
    obtain ⟨hctor, hcall⟩ := hxy
    simp only [Alts.select, List.find?_cons, hctor] at hsel ⊢
    cases hx : x.ctor.same c with
    | true =>
      simp only [hx, Option.some.injEq] at hsel ⊢
      exact ⟨some x.ctor, y.call, rfl, hsel ▸ hcall, by simpa using hx⟩
    | false =>
      simp only [hx] at hsel ⊢
      exact ih hsel

theorem calls {c' : Call} (hc : c' ∈ alts'.calls) :
    ∃ o, ∃ c ∈ alts.calls, R o c c' := by
  obtain ⟨arms, default⟩ := alts
  obtain ⟨arms', default'⟩ := alts'
  obtain ⟨harms, hdefault⟩ := h
  simp only at harms hdefault
  induction harms with
  | nil =>
    cases hdefault with
    | none => cases hc
    | @some c d hcd =>
      obtain rfl : c' = d := by simpa [Alts.calls] using hc
      exact ⟨none, c, by simp [Alts.calls], hcd⟩
  | @cons x y arms arms' hxy _ ih =>
    obtain rfl | hc := List.mem_cons.mp hc
    · exact ⟨_, x.call, .head .., hxy.2⟩
    · obtain ⟨o, c, hmem, hcc'⟩ := ih hc
      exact ⟨o, c, .tail _ hmem, hcc'⟩

theorem legal {σ : Signature} (hlegal : alts.Legal σ) : alts'.Legal σ := by
  refine ⟨fun y hy => ?_, ?_⟩
  · have hmem : y.ctor ∈ alts.arms.map Arm.ctor := h.ctors ▸ List.mem_map_of_mem hy
    obtain ⟨x, hx, hxy⟩ := List.mem_map.mp hmem
    exact hxy ▸ hlegal.ctors x hx
  · have hdistinct : (alts.arms.map Arm.ctor).Pairwise fun c d => c.same d = false :=
      List.pairwise_map.mpr hlegal.distinct
    exact List.pairwise_map.mp (h.ctors ▸ hdistinct)

end Alts.Related

section Mono

variable {σ τ : Signature} {scope scope' : List Temp}

variable (hσ : σ.Le τ)

include hσ

theorem Atom.Legal.mono (hsub : ∀ x ∈ scope, x ∈ scope') {a : Atom} (h : a.Legal σ scope) :
    a.Legal τ scope' := by
  cases a with
  | temp t => exact hsub t h
  | top r => exact hσ.top h
  | word | flag | external => trivial

theorem Tail.Shaped.mono {t : Tail} (h : t.Shaped σ) : t.Shaped τ := by
  cases t with
  | call => exact hσ.block h
  | closure => exact hσ.closure h
  | data => exact ⟨hσ.ctor h.1, h.2⟩
  | sel => exact hσ.ctor h
  | ret | enter | prim => trivial

theorem Tail.Legal.mono (hsub : ∀ x ∈ scope, x ∈ scope') {t : Tail} (h : t.Legal σ scope) :
    t.Legal τ scope' :=
  ⟨fun a ha => (h.atoms a ha).mono hσ hsub, h.shaped.mono hσ⟩

theorem Alts.Legal.mono {alts : Alts} (h : alts.Legal σ) : alts.Legal τ :=
  ⟨fun arm harm => hσ.ctor (h.ctors arm harm), h.distinct⟩

theorem Binders.mono (hnew : ∀ x ∈ scope', x ∈ scope ∨ σ.temps ≤ x.index) {vars : List Temp}
    (h : Binders σ scope vars) : Binders τ scope' vars := by
  refine ⟨h.nodup, fun v hv hmem => ?_, fun v hv => lt_of_lt_of_le (h.allocated v hv) hσ.temps⟩
  obtain hold | hfresh := hnew v hmem
  · exact h.new v hv hold
  · have := h.allocated v hv
    omega

theorem Code.Legal.mono (hsub : ∀ x ∈ scope, x ∈ scope')
    (hnew : ∀ x ∈ scope', x ∈ scope ∨ σ.temps ≤ x.index) {code : Code} (h : code.Legal σ scope) :
    code.Legal τ scope' := by
  induction code generalizing scope scope' with
  | done t => exact Tail.Legal.mono hσ hsub h
  | bind vars t rest ih =>
    obtain ⟨ht, hvars, hrest⟩ := h
    refine ⟨ht.mono hσ hsub, hvars.mono hσ hnew, ih (fun x hx => ?_) (fun x hx => ?_) hrest⟩
    · rw [List.mem_append] at hx ⊢
      exact hx.imp_left (hsub x)
    · rw [List.mem_append] at hx ⊢
      obtain hx | hx := hx
      · exact (hnew x hx).imp_left .inl
      · exact .inl (.inr hx)
  | assert a c rest ih => exact ⟨h.1.mono hσ hsub, hσ.ctor h.2.1, ih hsub hnew h.2.2⟩
  | branch test yes no => exact ⟨h.1.mono hσ hsub, h.2.1.mono hσ hsub, h.2.2.mono hσ hsub⟩
  | switch a alts =>
    exact ⟨h.1.mono hσ hsub, fun c hc => (h.2.1 c hc).mono hσ hsub, h.2.2.mono hσ⟩

theorem Code.Legal.le {code : Code} (h : code.Legal σ scope) : code.Legal τ scope :=
  h.mono hσ (fun _ => id) fun _ => .inl

end Mono

end MonadicIR
