import MonadicIR.Proofs.Regimes

namespace MonadicIR

open Program

namespace Program

/-- Is the constructor named somewhere in the program? -/
def Names (p : Program) (c : Ctor) : Prop := ∃ d ∈ p.allDefns, c ∈ p.ctors d

/-- Do descriptions of the same constructor agree on its arity? -/
def UniformArities (p : Program) : Prop :=
  ∀ d ∈ p.allDefns, ∀ c ∈ p.ctors d, ∀ e ∈ p.allDefns, ∀ c' ∈ p.ctors e,
    c.same c' = true → c.arity = c'.arity

instance (p : Program) : Decidable p.UniformArities :=
  inferInstanceAs (Decidable (∀ d ∈ p.allDefns, ∀ c ∈ p.ctors d, ∀ e ∈ p.allDefns, ∀ c' ∈ p.ctors e,
    c.same c' = true → c.arity = c'.arity))

theorem UniformArities.eq {p : Program} (h : p.UniformArities) {c c' : Ctor} (hc : p.Names c)
    (hc' : p.Names c') (hsame : c.same c' = true) : c.arity = c'.arity := by
  obtain ⟨d, hd, hcd⟩ := hc
  obtain ⟨e, he, hce⟩ := hc'
  exact h d hd c hcd e he c' hce hsame

def Accepts (p : Program) (entry : DefnId) (args : List Word) : Prop :=
  match entry with
  | .block b => ∃ block, p.blocks[b.index]? = some block ∧ block.params.length = args.length
  | .top t => p.defines (.top t) = true ∧ args = []
  | .closure _ => False

end Program

/-- The atom passes the check of some definition. -/
def Atom.Checked (p : Program) (a : Atom) : Prop := ∃ d, p.checkAtom d a = .ok ()

/-- The tail passes the check of some definition, and the program names its constructors. -/
structure Tail.Checked (p : Program) (t : Tail) : Prop where
  checked : ∃ d, p.checkTail d t = .ok ()
  ctors : ∀ c ∈ t.ctors, p.Names c

section Checked

variable {p : Program} {d : DefnId}

theorem Tail.Checked.atom {t : Tail} (h : t.Checked p) : ∀ a ∈ t.atoms, a.Checked p := by
  obtain ⟨d, hd⟩ := h.checked
  exact fun a ha => ⟨d, (checkTail_eq_ok_iff.mp hd).1 a ha⟩

theorem Tail.Checked.shape {t : Tail} (h : t.Checked p) : p.checkShape t = .ok () := by
  obtain ⟨d, hd⟩ := h.checked
  exact (checkTail_eq_ok_iff.mp hd).2

theorem Tail.checked_call {c : Call} (h : p.checkTail d (.call c) = .ok ()) :
    (Tail.call c).Checked p :=
  ⟨⟨d, h⟩, by simp [Tail.ctors]⟩

theorem Code.checked {code : Code} {bound : List Temp} (hcheck : p.checkCode d code bound = .ok ())
    (hctors : ∀ c ∈ code.ctors, p.Names c) : code.Passes (Atom.Checked p) (Tail.Checked p) := by
  induction code generalizing bound with
  | done t => exact ⟨⟨d, hcheck⟩, hctors⟩
  | bind vars t rest ih =>
    obtain ⟨ht, -, -, -, hrest⟩ := checkCode_bind.mp hcheck
    exact ⟨⟨⟨d, ht⟩, fun c hc => hctors c (List.mem_append_left _ hc)⟩,
      ih hrest fun c hc => hctors c (List.mem_append_right _ hc)⟩
  | assert a ctor rest ih =>
    obtain ⟨ha, -, hrest⟩ := checkCode_assert.mp hcheck
    exact ⟨⟨d, ha⟩, ih hrest fun c hc => hctors c (.tail _ hc)⟩
  | branch test yes no =>
    obtain ⟨ha, hcalls⟩ := checkCode_branch.mp hcheck
    exact ⟨⟨d, ha⟩, fun c hc => Tail.checked_call (hcalls c hc)⟩
  | switch a alts =>
    obtain ⟨ha, hcalls, -⟩ := checkCode_switch.mp hcheck
    exact ⟨⟨d, ha⟩, fun c hc => Tail.checked_call (hcalls c hc)⟩

end Checked

/-- Every definition, retained or not, keeps the structural rules, and constructors agree. -/
structure Program.Checked (p : Program) : Prop where
  defns : ∀ d ∈ p.allDefns, p.checkDefn d = .ok ()
  arities : p.UniformArities

namespace Program.Checked

variable {p : Program} (h : p.Checked)

include h

theorem code {b : BlockId} {block : Block} (hb : p.blocks[b.index]? = some block) :
    block.code.Passes (Atom.Checked p) (Tail.Checked p) := by
  have hd := mem_allDefns.mpr (defines_block_iff.mpr ⟨block, hb⟩)
  obtain ⟨_, hb', -, hcode⟩ := checkDefn_block.mp (h.defns _ hd)
  obtain rfl := Option.mem_unique hb hb'
  exact Code.checked hcode fun c hc => ⟨_, hd, by simpa [ctors, hb] using hc⟩

theorem closureTail {k : ClosureId} {closure : Closure}
    (hk : p.closures[k.index]? = some closure) : closure.tail.Checked p := by
  have hd := mem_allDefns.mpr (defines_closure_iff.mpr ⟨closure, hk⟩)
  obtain ⟨_, hk', -, htail⟩ := checkDefn_closure.mp (h.defns _ hd)
  obtain rfl := Option.mem_unique hk hk'
  exact ⟨⟨_, htail⟩, fun c hc => ⟨_, hd, by simpa [ctors, hk] using hc⟩⟩

theorem topTail {t : TopId} {top : TopLevel} (ht : p.tops[t.index]? = some top) :
    top.tail.Checked p := by
  have hd := mem_allDefns.mpr (defines_top_iff.mpr ⟨top, ht⟩)
  obtain ⟨_, ht', htail, -⟩ := checkDefn_top.mp (h.defns _ hd)
  obtain rfl := Option.mem_unique ht ht'
  exact ⟨⟨_, htail⟩, fun c hc => ⟨_, hd, by simpa [ctors, ht] using hc⟩⟩

end Program.Checked

/-- What is checked may be run. Data has as many fields as its constructor takes, and closures are
there with as many stored values as they ask for. -/
def Program.Checked.regime {p : Program} (h : p.Checked) : Regime p p where
  data c n := ∀ c', p.Names c' → c.same c' = true → n = c'.arity
  closure k n := ∃ x, p.closures[k.index]? = some x ∧ x.stored.length = n
  atom := Atom.Checked p
  tail := Tail.Checked p
  top t := p.defines (.top t) = true
  sure := True
  atoms := Tail.Checked.atom
  topAtom ha := by
    obtain ⟨d, hd⟩ := ha
    simp only [checkAtom, bind_eq_ok_iff] at hd
    obtain ⟨x, hx, hindex⟩ := hd
    refine ⟨defines_top_iff.mpr ⟨x, top_eq_ok_iff.mp hx⟩, fun y hy _ => ?_⟩
    obtain rfl := Except.ok.inj (hx.symm.trans hy)
    split at hindex
    · assumption
    · cases hindex
  allocates ht c' hc' hsame := by
    have hshape := ht.shape
    simp only [checkShape, bind_eq_ok_iff, exists_unit, checkCount_eq_ok_iff] at hshape
    rw [← h.arities.eq (ht.ctors _ (by simp [Tail.ctors])) hc' hsame]
    exact hshape.2.symm
  encloses ht := checkShape_closure.mp ht.shape
  selects {ctor field _ _ _} ht hdata hsame _ := by
    have hshape := ht.shape
    simp only [checkShape, bind_eq_ok_iff, exists_unit] at hshape
    rw [hdata ctor (ht.ctors _ (by simp [Tail.ctors])) hsame]
    by_contra hge
    simp [hge] at hshape
  callee hc := by
    obtain ⟨x, hx, hlen⟩ := checkShape_call.mp hc.shape
    refine ⟨rfl, fun y hy => ?_, fun _ => ⟨x, block_eq_ok_iff.mpr hx⟩⟩
    obtain rfl := Option.mem_unique hx (block_eq_ok_iff.mp hy)
    exact ⟨fun _ => hlen, h.code hx⟩
  entered hk := by
    obtain ⟨x, hx, -⟩ := hk
    exact ⟨rfl, fun _ hy => h.closureTail (closure_eq_ok_iff.mp hy), fun _ =>
      ⟨x, closure_eq_ok_iff.mpr hx⟩⟩
  computed ht := by
    obtain ⟨x, hx⟩ := defines_top_iff.mp ht
    exact ⟨rfl, fun _ hy => h.topTail (top_eq_ok_iff.mp hy), fun _ => ⟨x, top_eq_ok_iff.mpr hx⟩⟩

theorem Program.Checked.entry {p : Program} (h : p.Checked) {entry : DefnId} {args : List Word}
    (hentry : p.Accepts entry args) : h.regime.Entry args entry := by
  cases entry with
  | block b =>
    obtain ⟨x, hx, hlen⟩ := hentry
    have hcheck : p.checkTail (.block b) (.call ⟨b, args.map .word⟩) = .ok () :=
      checkTail_eq_ok_iff.mpr ⟨by simp [Tail.atoms, checkAtom],
        checkShape_call.mpr ⟨x, hx, by simpa⟩⟩
    exact Tail.checked_call hcheck
  | top t => exact hentry.1
  | closure k => exact trivial

/-- Programs whose definitions all keep the structural rules, and whose constructors agree on their
arities, do not break: a run meets no definition, component or field that is missing, and no block
gets another number of arguments than it has parameters. -/
theorem Program.run_keeps_structure (p : Program)
    (hcheck : ∀ d ∈ p.allDefns, p.checkDefn d = .ok ())
    (harities : p.UniformArities) (entry : DefnId) (args : List Word)
    (hentry : p.Accepts entry args) (limit : Nat) :
    (∀ f, p.run entry args limit ≠ .error (.fault f)) ∧
      ∀ b expected found, p.run entry args limit ≠ .error (.arity (.call b) expected found) ∧
        p.run entry args limit ≠ .error (.arity (.entry b) expected found) := by
  have hchecked : p.Checked := ⟨hcheck, harities⟩
  have hfails := (Run.evalEntry_tracks (le_refl limit) (hchecked.entry hentry)).fails {}
    ⟨rfl, by simp⟩
  have hrun (e : RunError) (he : p.run entry args limit = .error e) : ¬e.Structural := by
    revert he hfails
    unfold Program.run
    cases Run.evalEntry p limit entry args {} with
    | ok vs s => simp
    | error stop s =>
      cases stop with
      | failed e' =>
        rintro hfails ⟨⟩
        exact hfails e s rfl trivial
      | halted | diverged => simp
  refine ⟨fun f h => hrun _ h trivial, fun b expected found => ⟨?_, ?_⟩⟩ <;>
    exact fun h => hrun _ h trivial

/-- Adds the second field of a pair, which a top-level holds, to its argument, by way of a closure. -/
def Program.addSecond : Program :=
  let pair : Ctor := ⟨0, 0, 2, 1, "Pair"⟩
  { temps := ⟨.replicate 10 none⟩
    datatypes := #[⟨"Pair", [pair]⟩]
    blocks := #[
      { params := [⟨1⟩]
        code := .bind [⟨2⟩] (.closure ⟨0⟩ [.temp ⟨1⟩])
          (.done (.enter (.temp ⟨2⟩) [.top ⟨⟨0⟩, 0⟩])) },
      { params := [⟨6⟩, ⟨7⟩]
        code := .bind [⟨8⟩] (.sel pair 1 (.temp ⟨7⟩)) (.done (.prim .add [.temp ⟨6⟩, .temp ⟨8⟩])) }]
    closures := #[
      { stored := [⟨4⟩]
        params := [⟨5⟩]
        tail := .call ⟨⟨1⟩, [.temp ⟨4⟩, .temp ⟨5⟩]⟩ }]
    tops := #[⟨[⟨"pair", none⟩], .data pair [.word 7, .word 8], {}⟩]
    entrypoints := [.block ⟨0⟩] }

theorem Program.run_keeps_structure_addSecond :
    (∀ d ∈ addSecond.allDefns, addSecond.checkDefn d = .ok ()) ∧ addSecond.UniformArities ∧
      addSecond.Accepts (.block ⟨0⟩) [5] ∧
      addSecond.run (.block ⟨0⟩) [5] 6 = .ok ⟨[], .returned [.word 13]⟩ ∧
      (∀ f, addSecond.run (.block ⟨0⟩) [5] 4 ≠ .error (.fault f)) := by
  have hcheck : ∀ d ∈ addSecond.allDefns, addSecond.checkDefn d = .ok () := by decide +kernel
  have harities : addSecond.UniformArities := by decide +kernel
  have hentry : addSecond.Accepts (.block ⟨0⟩) [5] := ⟨_, rfl, rfl⟩
  exact ⟨hcheck, harities, hentry, by decide +kernel,
    (run_keeps_structure addSecond hcheck harities (.block ⟨0⟩) [5] hentry 4).1⟩

end MonadicIR
