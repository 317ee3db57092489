import MonadicIR.Proofs.Intact

namespace MonadicIR

open List

theorem Code.passes_of_refs {R : DefnId → Prop} {code : Code} (h : ∀ d ∈ code.refs, R d) :
    code.Passes (fun a => ∀ r, a.top? = some r → R (.top r.top)) fun t => ∀ d ∈ t.refs, R d := by
  induction code with
  | done t => exact refs_done.mp h
  | bind vars t rest ih => exact (refs_bind.mp h).imp_right ih
  | assert a ctor rest ih => exact (refs_assert.mp h).imp_right ih
  | branch test yes no => exact refs_branch.mp h
  | switch a alts => exact refs_switch.mp h

theorem map_eq_map_iff {ε α β : Type} {x y : Except ε α} {f : α → β} : x.map f = y.map f ↔
    (∃ e, x = .error e ∧ y = .error e) ∨ ∃ a b, x = .ok a ∧ y = .ok b ∧ f a = f b := by
  cases x <;> cases y <;> simp [Except.map]
  exact eq_comm

namespace Program

variable {p q : Program} {d : DefnId} {R : DefnId → Prop}

/-- Do both programs give the name the same parameters and the same body, or neither of them any? -/
def SameBody (p q : Program) : DefnId → Prop
  | .block b =>
    (p.block b).map (fun x => (x.params, x.code)) = (q.block b).map fun x => (x.params, x.code)
  | .closure k => (p.closure k).map (fun x => (x.stored, x.params, x.tail)) =
      (q.closure k).map fun x => (x.stored, x.params, x.tail)
  | .top t => (p.top t).map (fun x => (x.lhs, x.tail)) = (q.top t).map fun x => (x.lhs, x.tail)

theorem SameBody.refl (p : Program) (d : DefnId) : p.SameBody p d := by
  cases d <;> rfl

theorem SameBody.symm (h : p.SameBody q d) : q.SameBody p d := by
  cases d <;> exact Eq.symm h

theorem SameBody.callees (h : p.SameBody q d) : p.callees d = q.callees d := by
  cases d <;> obtain ⟨e, hx, hy⟩ | ⟨x, y, hx, hy, hxy⟩ := map_eq_map_iff.mp h <;>
    simp_all [Program.callees, Except.map]

/-- Programs that agree on definitions which only refer to each other. -/
structure Agree (p q : Program) (R : DefnId → Prop) : Prop where
  same : ∀ {d}, R d → p.SameBody q d
  closed : ∀ {d e}, R d → p.Refers d e → R e

theorem Agree.symm (h : p.Agree q R) : q.Agree p R where
  same hd := (h.same hd).symm
  closed hd hde := h.closed hd (by rwa [Refers, (h.same hd).callees])

theorem Agree.block (h : p.Agree q R) {b : BlockId} {x : Block} (hb : R (.block b))
    (hx : p.block b = .ok x) : ∀ d ∈ x.code.refs, R d := fun _ hd =>
  h.closed hb ⟨_, map_eq_ok_iff.mpr ⟨x, hx, rfl⟩, mem_distinct.mpr hd⟩

theorem Agree.closure (h : p.Agree q R) {k : ClosureId} {x : Closure} (hk : R (.closure k))
    (hx : p.closure k = .ok x) : ∀ d ∈ x.tail.refs, R d := fun _ hd =>
  h.closed hk ⟨_, map_eq_ok_iff.mpr ⟨x, hx, rfl⟩, mem_distinct.mpr hd⟩

theorem Agree.top (h : p.Agree q R) {t : TopId} {x : TopLevel} (ht : R (.top t))
    (hx : p.top t = .ok x) : ∀ d ∈ x.tail.refs, R d := fun _ hd =>
  h.closed ht ⟨_, map_eq_ok_iff.mpr ⟨x, hx, rfl⟩, mem_distinct.mpr hd⟩

/-- What only refers to definitions on which the programs agree. -/
def Agree.regime (h : p.Agree q R) : Regime p q where
  data _ _ := True
  closure k _ := R (.closure k)
  atom a := ∀ r, a.top? = some r → R (.top r.top)
  tail t := ∀ d ∈ t.refs, R d
  top t := R (.top t)
  sure := False
  atoms ht _ ha _ hr := ht _ (Tail.top_mem_refs ha hr)
  topAtom ha := ⟨ha _ rfl, fun _ _ => False.elim⟩
  allocates _ := trivial
  encloses ht := ht _ (by simp [Tail.refs])
  selects _ _ _ := False.elim
  callee {c} hc := by
    have htarget := hc (.block c.target) (Tail.mem_refs_call.mpr (.inl rfl))
    exact ⟨h.same htarget, fun _ hx => ⟨False.elim, Code.passes_of_refs (h.block htarget hx)⟩,
      False.elim⟩
  entered hk := ⟨h.same hk, fun _ => h.closure hk, False.elim⟩
  computed ht := ⟨h.same ht, fun _ => h.top ht, False.elim⟩

theorem Agree.self (p : Program) : p.Agree p fun _ => True := ⟨fun _ => .refl p _, fun _ _ =>
    trivial⟩

end Program

/-- Are the results the same, or is the first one that of a run which was cut off when it had
printed a part of what the second one prints? -/
def Truncates (r r' : Except RunError Outcome) : Prop :=
  r = r' ∨ ∃ output, r = .ok ⟨output, .diverged⟩ ∧ ∀ o, r' = .ok o → output <+: o.output

theorem Truncates.antisymm {r r' : Except RunError Outcome} (h : Truncates r r')
    (h' : Truncates r' r) : r = r' := by
  obtain h | ⟨output, rfl, hpart⟩ := h
  · exact h
  obtain h' | ⟨output', rfl, hpart'⟩ := h'
  · exact h'.symm
  obtain rfl : output = output' := (hpart _ rfl).eq_of_length_le (hpart' _ rfl).length_le
  rfl

namespace Program

variable {p q : Program} {R : DefnId → Prop} {n m : Nat} {entry : DefnId}

theorem Agree.truncates (h : p.Agree q R) (hle : n ≤ m) (hentry : R entry) (args : List Word) :
    Truncates (p.run entry args n) (q.run entry args m) := by
  have hentry : h.regime.Entry args entry := by
    cases entry with
    | block b => simpa [Regime.Entry, Agree.regime, Tail.refs, Tail.atoms, Atom.top?] using hentry
    | top t => exact hentry
    | closure k => exact trivial
  obtain hsame | ⟨s, hcut, hprinted⟩ := (Run.evalEntry_tracks hle hentry).same {} ⟨rfl, by simp⟩
  · exact .inl (by rw [run, run, hsame])
  · refine .inr ⟨s.output.toList, by rw [run, hcut], fun o ho => ?_⟩
    rw [run] at ho
    cases hy : Run.evalEntry q m entry args {} with
    | ok values s' =>
      rw [hy] at ho hprinted
      obtain rfl := Except.ok.inj ho
      exact hprinted
    | error stop s' =>
      rw [hy] at ho hprinted
      cases stop with
      | halted | diverged =>
        obtain rfl := Except.ok.inj ho
        exact hprinted
      | failed e => cases ho

/-- What a definition does depends on nothing but the definitions that it leads to: another program
that has the same bodies for them gives the same result. -/
theorem run_eq_of_sameBody (p q : Program) (entry : DefnId)
    (h : ∀ d, p.LeadsTo entry d → p.SameBody q d) (args : List Word) (limit : Nat) :
    p.run entry args limit = q.run entry args limit := by
  have hagree : p.Agree q (p.LeadsTo entry) := ⟨h _, fun hd hde => hd.tail hde⟩
  exact (hagree.truncates le_rfl .refl args).antisymm (hagree.symm.truncates le_rfl .refl args)

/-- The definitions of a list that is closed under references lead to nothing else. -/
theorem mem_of_leadsTo {ds : List DefnId} {d : DefnId} (hentry : entry ∈ ds)
    (hclosed : ∀ d ∈ ds, ∀ e ∈ (p.callees d).toOption.getD [], e ∈ ds) (hd : p.LeadsTo entry d) :
    d ∈ ds := by
  induction hd with
  | refl => exact hentry
  | tail _ hde ih =>
    obtain ⟨cs, hcs, he⟩ := hde
    exact hclosed _ ih _ (by simpa [hcs, Except.toOption] using he)

/-- The program with a block and a top-level that its entrypoint does not lead to. -/
def addSecondAndMore : Program :=
  { addSecond with
    blocks := addSecond.blocks.push { params := [], code := .done (.ret [.top ⟨⟨1⟩, 0⟩]) }
    tops := addSecond.tops.push ⟨[⟨"more", none⟩], .call ⟨⟨2⟩, []⟩, {}⟩ }

theorem run_eq_of_sameBody_addSecond :
    (∀ d, addSecondAndMore.LeadsTo (.block ⟨0⟩) d → addSecondAndMore.SameBody addSecond d) ∧
      addSecondAndMore.run (.block ⟨0⟩) [5] 6 = addSecond.run (.block ⟨0⟩) [5] 6 := by
  have hsame : ∀ d, addSecondAndMore.LeadsTo (.block ⟨0⟩) d →
    addSecondAndMore.SameBody addSecond d := by
    intro d hd
    have hmem : d ∈ [.block ⟨0⟩, .block ⟨1⟩, .closure ⟨0⟩, .top ⟨0⟩] :=
      mem_of_leadsTo (.head ..) (by decide +kernel) hd
    simp only [mem_cons, not_mem_nil, or_false] at hmem
    obtain rfl | rfl | rfl | rfl := hmem <;> rfl
  exact ⟨hsame, run_eq_of_sameBody _ _ _ hsame _ _⟩

/-- A limit on the steps only truncates. A run that is not cut off has the same result under every
larger limit. One that is cut off has printed a part of what is printed under a larger limit, unless
it fails there. -/
theorem run_of_larger_limit (p : Program) (entry : DefnId) (args : List Word) {n m : Nat}
    (hle : n ≤ m) :
    ((∀ output, p.run entry args n ≠ .ok ⟨output, .diverged⟩) →
        p.run entry args m = p.run entry args n) ∧
      ∀ output, p.run entry args n = .ok ⟨output, .diverged⟩ →
        (∃ e, p.run entry args m = .error e) ∨
          ∃ o, p.run entry args m = .ok o ∧ output <+: o.output := by
  have htruncates : Truncates (p.run entry args n) (p.run entry args m) :=
    (Agree.self p).truncates hle trivial args
  constructor
  · intro hends
    obtain hsame | ⟨output, hcut, -⟩ := htruncates
    · exact hsame.symm
    · exact absurd hcut (hends output)
  · intro output hcut
    cases hm : p.run entry args m with
    | error e => exact .inl ⟨e, rfl⟩
    | ok o =>
      refine .inr ⟨o, rfl, ?_⟩
      obtain hsame | ⟨output', hcut', hpart⟩ := htruncates
      · obtain rfl := Except.ok.inj (hcut.symm.trans (hsame.trans hm))
        exact prefix_rfl
      · obtain ⟨rfl⟩ := Except.ok.inj (hcut.symm.trans hcut')
        exact hpart o hm

def printTwice : Program where
  blocks := #[
    { params := []
      code := .bind [] (.prim .print [.word 1]) (.bind [] (.prim .print [.word 2])
        (.done (.prim .halt []))) }]

theorem run_of_larger_limit_printTwice :
    printTwice.run (.block ⟨0⟩) [] 1 = .ok ⟨[.word 1], .diverged⟩ ∧
      printTwice.run (.block ⟨0⟩) [] 3 = .ok ⟨[.word 1, .word 2], .halted⟩ ∧
      printTwice.run (.block ⟨0⟩) [] 7 = printTwice.run (.block ⟨0⟩) [] 3 ∧
      ((∃ e, printTwice.run (.block ⟨0⟩) [] 3 = .error e) ∨
        ∃ o, printTwice.run (.block ⟨0⟩) [] 3 = .ok o ∧ [.word 1] <+: o.output) := by
  have hcut : printTwice.run (.block ⟨0⟩) [] 1 = .ok ⟨[.word 1], .diverged⟩ := by decide +kernel
  have hends : printTwice.run (.block ⟨0⟩) [] 3 = .ok ⟨[.word 1, .word 2], .halted⟩ := by
    decide +kernel
  refine ⟨hcut, hends, (run_of_larger_limit printTwice (.block ⟨0⟩) [] (by decide)).1 ?_,
    (run_of_larger_limit printTwice (.block ⟨0⟩) [] (by decide)).2 _ hcut⟩
  simp [hends]

end Program

end MonadicIR
