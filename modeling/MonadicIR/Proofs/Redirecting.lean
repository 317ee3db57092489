import MonadicIR.Specialise
import MonadicIR.Proofs.Passes

namespace MonadicIR

/-- A reference to a definition, where it is met. -/
inductive Pointer where
  | block (b : BlockId)
  | closure (k : ClosureId)
  | top (t : TopRef)
  /-- A top-level that is passed on by a branch of a conditional or a case. -/
  | operand (t : TopRef)
deriving DecidableEq, Repr

def topsOf (as : List Atom) : List TopRef := as.filterMap Atom.top?

def Tail.pointers (t : Tail) : List Pointer :=
  let heads : List Pointer :=
    match t with
    | call c => [.block c.target]
    | closure k _ => [.closure k]
    | _ => []
  heads ++ (topsOf t.atoms).map .top

def Call.pointers (c : Call) : List Pointer := .block c.target :: (topsOf c.args).map .operand

def Code.pointers : Code → List Pointer
  | done t => t.pointers
  | bind _ tail rest => tail.pointers ++ rest.pointers
  | assert a _ rest => (topsOf [a]).map .top ++ rest.pointers
  | branch test yes no => (topsOf [test]).map .top ++ (yes.pointers ++ no.pointers)
  | switch a alts => (topsOf [a]).map .top ++ alts.calls.flatMap Call.pointers

def Program.pointers (p : Program) : DefnId → Except Fault (List Pointer)
  | .block b => (p.block b).map fun block => block.code.pointers
  | .closure k => (p.closure k).map fun closure => closure.tail.pointers
  | .top t => (p.top t).map fun top => top.tail.pointers

namespace Redirection

variable (r : Redirection)

/-- Every reference goes where the redirection says. -/
def pointer : Pointer → Pointer
  | .block b => .block (r.block b)
  | .closure k => .closure (r.closure k)
  | .top t => .top (r.top t)
  | .operand t => .operand (r.top t)

/-- As `pointer`, but the operands of branches stay. -/
def carry : Pointer → Pointer
  | .operand t => .operand t
  | m => r.pointer m

theorem map_carry {ms : List Pointer} (h : ∀ t, .operand t ∈ ms → r.top t = t) :
    ms.map r.carry = ms.map r.pointer := by
  refine List.map_congr_left fun m hm => ?_
  cases m with
  | operand t => simp only [carry, pointer, h t hm]
  | block | closure | top => rfl

end Redirection

/-- Does the substitution put variables in the place of variables? -/
def Subst.Renames (s : Subst) : Prop := ∀ t, ∃ u, s.apply (.temp t) = .temp u

namespace Subst.Renames

variable {s : Subst}

theorem empty : Renames {} := fun t => ⟨t, rfl⟩

theorem extend (h : s.Renames) (t u : Temp) : (s.extend t (.temp u)).Renames := by
  intro x
  unfold Subst.extend
  split
  · exact h x
  · by_cases hx : t = x
    · exact ⟨u, by simp [apply, lookup, hx]⟩
    · obtain ⟨y, hy⟩ := h x
      exact ⟨y, by simpa [apply, lookup, hx] using hy⟩

theorem renameAll (h : s.Renames) (ts us : List Temp) : (s.renameAll ts us).Renames := by
  unfold Subst.renameAll
  induction ts generalizing s us with
  | nil => exact h
  | cons t ts ih =>
    cases us with
    | nil => exact h
    | cons u us => exact ih (h.extend t u) us

theorem top?_apply (h : s.Renames) (a : Atom) : (s.apply a).top? = a.top? := by
  cases a with
  | temp t =>
    obtain ⟨u, hu⟩ := h t
    rw [hu]
    rfl
  | word | flag | top | external => rfl

theorem topsOf_applyAll (h : s.Renames) (as : List Atom) : topsOf (s.applyAll as) = topsOf as := by
  simp only [topsOf, applyAll, List.filterMap_map, Function.comp_def, h.top?_apply]

end Subst.Renames

namespace Redirection

variable (r : Redirection) {s : Subst} (hs : s.Renames)

include hs

theorem top?_atom (a : Atom) : (r.atom s a).top? = a.top?.map r.top := by
  have hsame := hs.top?_apply a
  unfold atom
  cases happly : s.apply a with
  | top t =>
    rw [happly] at hsame
    rw [← hsame]
    rfl
  | temp | word | flag | external =>
    rw [happly] at hsame
    rw [← hsame]
    rfl

theorem topsOf_map_atom (as : List Atom) : topsOf (as.map (r.atom s)) = (topsOf as).map r.top := by
  simp only [topsOf, List.filterMap_map, List.map_filterMap, Function.comp_def, r.top?_atom hs]

theorem pointers_atoms (as : List Atom) : (topsOf (as.map (r.atom s))).map Pointer.top =
    ((topsOf as).map Pointer.top).map r.carry := by
  rw [r.topsOf_map_atom hs, List.map_map, List.map_map]
  rfl

theorem pointers_atom (a : Atom) : (topsOf [r.atom s a]).map Pointer.top =
    ((topsOf [a]).map Pointer.top).map r.carry :=
  r.pointers_atoms hs [a]

theorem pointers_tail (t : Tail) : (r.tail s t).pointers = t.pointers.map r.carry := by
  cases t <;>
    simp only [Tail.pointers, tail, Tail.mapAtoms, Tail.atoms, List.map_append,
      ← r.pointers_atoms hs] <;>
    rfl

theorem pointers_branch (c : Call) : (r.branch s c).pointers = c.pointers.map r.carry := by
  simp only [Call.pointers, branch, hs.topsOf_applyAll, List.map_cons, List.map_map]
  rfl

theorem pointers_calls (alts : Alts) : (alts.mapCalls (r.branch s)).calls.flatMap Call.pointers =
    (alts.calls.flatMap Call.pointers).map r.carry := by
  rw [Alts.calls_mapCalls, List.flatMap_map, List.map_flatMap]
  simp only [r.pointers_branch hs]

end Redirection

namespace Redirection

variable (r : Redirection)

theorem freshTemps_eq (ts : List Temp) (p : Program) :
    ∃ us temps, r.freshTemps ts p = .ok us { p with temps } := by
  induction ts generalizing p with
  | nil => exact ⟨[], p.temps, rfl⟩
  | cons t ts ih =>
    have hrest (u : Temp) (temps : Temps) : ∃ us temps',
        (do
          let us ← r.freshTemps ts
          return u :: us : Edit (List Temp)) { p with temps } =
            .ok us { p with temps := temps' } := by
      obtain ⟨us, temps', hus⟩ := ih { p with temps }
      exact ⟨u :: us, temps', bind_ok_iff.mpr ⟨us, _, hus, rfl⟩⟩
    unfold freshTemps
    split
    · exact hrest t p.temps
    · exact hrest _ _

theorem code_eq (code : Code) {s : Subst} (hs : s.Renames) (p : Program) :
    ∃ copy temps, r.code code s p = .ok copy { p with temps } ∧
      copy.pointers = code.pointers.map r.carry := by
  induction code generalizing s p with
  | done t => exact ⟨_, p.temps, rfl, r.pointers_tail hs t⟩
  | bind vars tail rest ih =>
    obtain ⟨us, temps, hus⟩ := r.freshTemps_eq vars p
    obtain ⟨copy, temps', hcopy, hrest⟩ := ih (hs.renameAll vars us) { p with temps }
    refine ⟨.bind us (r.tail s tail) copy, temps', ?_, ?_⟩
    · rw [code]
      exact bind_ok_iff.mpr ⟨us, _, hus, bind_ok_iff.mpr ⟨copy, _, hcopy, rfl⟩⟩
    · simp only [Code.pointers, r.pointers_tail hs, hrest, List.map_append]
  | assert a ctor rest ih =>
    obtain ⟨copy, temps, hcopy, hrest⟩ := ih hs p
    refine ⟨.assert (r.atom s a) ctor copy, temps, ?_, ?_⟩
    · rw [code]
      exact bind_ok_iff.mpr ⟨copy, _, hcopy, rfl⟩
    · simp only [Code.pointers, r.pointers_atom hs, hrest, List.map_append]
  | branch test yes no =>
    exact ⟨_, p.temps, rfl, by
      simp only [Code.pointers, r.pointers_atom hs, r.pointers_branch hs, List.map_append]⟩
  | switch a alts =>
    exact ⟨_, p.temps, rfl, by
      simp only [Code.pointers, r.pointers_atom hs, r.pointers_calls hs, List.map_append]⟩

end Redirection

namespace Edit

variable (r : Redirection) (p : Program)

/-- A definition that exists can be specialised. The copy is new, and has the pointers of the
original in the same order, redirected unless they are operands of branches. -/
theorem specialise_eq (d : DefnId) {ps : List Pointer} (hps : p.pointers d = .ok ps) :
    ∃ copy p', specialise r d p = .ok copy p' ∧ p.defines copy = false ∧
      p'.pointers copy = .ok (ps.map r.carry) := by
  cases d with
  | block b =>
    obtain ⟨block, hblock, rfl⟩ := map_eq_ok_iff.mp hps
    obtain ⟨params, temps, hparams⟩ := r.freshTemps_eq block.params p
    obtain ⟨code, temps', hcode, hpointers⟩ := r.code_eq block.code
      (Subst.Renames.empty.renameAll block.params params) { p with temps }
    refine ⟨.block ⟨p.blocks.size⟩, ({ p with temps := temps' }.addBlock { params, code }).2, ?_,
      by simp [Program.defines], ?_⟩
    · simp only [specialise, bind_ok_iff, read_eq_ok_iff]
      exact ⟨block, p, ⟨hblock, rfl⟩, params, _, hparams, code, _, hcode, _, _, rfl, rfl⟩
    · rw [← hpointers]
      simp [Program.pointers, Program.block, Program.addBlock, Except.map]
  | closure k =>
    obtain ⟨closure, hclosure, rfl⟩ := map_eq_ok_iff.mp hps
    obtain ⟨stored, temps, hstored⟩ := r.freshTemps_eq closure.stored p
    obtain ⟨params, temps', hparams⟩ := r.freshTemps_eq closure.params { p with temps }
    let s := (({} : Subst).renameAll closure.stored stored).renameAll closure.params params
    have hs : s.Renames := (Subst.Renames.empty.renameAll _ _).renameAll _ _
    refine ⟨.closure ⟨p.closures.size⟩, ({ p with temps := temps' }.addClosure
      { stored, params, tail := r.tail s closure.tail }).2, ?_, by simp [Program.defines], ?_⟩
    · simp only [specialise, bind_ok_iff, read_eq_ok_iff]
      exact ⟨closure, p, ⟨hclosure, rfl⟩, stored, _, hstored, params, _, hparams, _, _, rfl, rfl⟩
    · rw [← r.pointers_tail hs]
      simp [Program.pointers, Program.closure, Program.addClosure, Except.map]
  | top t =>
    obtain ⟨top, htop, rfl⟩ := map_eq_ok_iff.mp hps
    let lhs := top.lhs.map fun n => { n with ty := n.ty.map r.ty }
    refine ⟨.top ⟨p.tops.size⟩, (p.addTop { lhs, tail := r.tail {} top.tail }).2, ?_,
      by simp [Program.defines], ?_⟩
    · simp only [specialise, bind_ok_iff, read_eq_ok_iff]
      exact ⟨top, p, ⟨htop, rfl⟩, _, _, rfl, rfl⟩
    · rw [← r.pointers_tail Subst.Renames.empty]
      simp [Program.pointers, Program.top, Program.addTop, Except.map]

/-- Where no branch passes on a top-level that would have to be redirected, all pointers of the copy
are those of the original redirected. -/
theorem specialise_redirects (d : DefnId) (ps : List Pointer) (hps : p.pointers d = .ok ps)
    (hoperands : ∀ t, .operand t ∈ ps → r.top t = t) :
    ∃ copy p', specialise r d p = .ok copy p' ∧ p.defines copy = false ∧
      p'.pointers copy = .ok (ps.map r.pointer) := by
  rw [← r.map_carry hoperands]
  exact specialise_eq r p d hps

end Edit

/-- A block with each kind of pointer. Its last branch passes on a top-level. -/
def signpost : Program where
  temps := ⟨.replicate 5 none⟩
  blocks := #[
    { params := [⟨1⟩]
      code := .bind [⟨2⟩] (.closure ⟨0⟩ [.top ⟨⟨0⟩, 0⟩, .temp ⟨1⟩])
        (.bind [⟨3⟩] (.call ⟨⟨1⟩, [.temp ⟨2⟩]⟩)
          (.branch (.temp ⟨3⟩) ⟨⟨1⟩, [.temp ⟨3⟩]⟩ ⟨⟨1⟩, [.top ⟨⟨1⟩, 0⟩]⟩)) },
    { params := [⟨4⟩]
      code := .done (.ret [.temp ⟨4⟩]) }]
  entrypoints := [.block ⟨0⟩]

/-- Blocks and closures are moved on by one, and so is this top-level. -/
def detour (moved : TopRef) : Redirection where
  block b := ⟨b.index + 1⟩
  closure k := ⟨k.index + 1⟩
  top t := if t = moved then ⟨⟨t.top.index + 2⟩, t.index⟩ else t

theorem Edit.specialise_redirects_signpost : ∃ copy p',
    specialise (detour ⟨⟨0⟩, 0⟩) (.block ⟨0⟩) signpost = .ok copy p' ∧
      signpost.defines copy = false ∧
      p'.pointers copy = .ok [.closure ⟨1⟩, .top ⟨⟨2⟩, 0⟩, .block ⟨2⟩, .block ⟨2⟩, .block ⟨2⟩,
        .operand ⟨⟨1⟩, 0⟩] :=
  specialise_redirects (detour ⟨⟨0⟩, 0⟩) signpost (.block ⟨0⟩) [.closure ⟨0⟩, .top ⟨⟨0⟩, 0⟩,
    .block ⟨1⟩, .block ⟨1⟩, .block ⟨1⟩, .operand ⟨⟨1⟩, 0⟩] rfl (by simp [detour])

/-- The top-level that the branch passes on is not redirected. -/
theorem Edit.specialise_signpost_operand : ∃ copy p',
    specialise (detour ⟨⟨1⟩, 0⟩) (.block ⟨0⟩) signpost = .ok copy p' ∧
      p'.pointers copy ≠ (signpost.pointers (.block ⟨0⟩)).map (List.map (detour ⟨⟨1⟩, 0⟩).pointer) ∧
      p'.pointers copy = .ok [.closure ⟨1⟩, .top ⟨⟨0⟩, 0⟩, .block ⟨2⟩, .block ⟨2⟩, .block ⟨2⟩,
        .operand ⟨⟨1⟩, 0⟩] :=
  ⟨_, _, rfl, by decide, by decide⟩

end MonadicIR
