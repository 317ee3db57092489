import MonadicIR.Proofs.Checked
import MonadicIR.Proofs.PipelineRealms

namespace MonadicIR

open Program

namespace Program

variable {p q : Program} {V : Vocabulary} {d : DefnId}

/-- No definition that is still part of the program reads the wildcard. -/
def WildcardUnread (p : Program) : Prop :=
  ∀ d ∈ p.defns, ∀ code, p.body? d = some code → .temp .wildcard ∉ code.atoms

/-- The copies that are noted of a definition, and what it was merged into. -/
def copies (p : Program) (d : DefnId) : List DefnId :=
  (p.outline? d).elim [] fun x => x.derived ++ x.replacement.toList

def KnowsCopies (p : Program) : Prop := ∀ d ∈ p.allDefns, ∀ e ∈ p.copies d, p.defines e = true

instance (p : Program) : Decidable p.KnowsCopies :=
  inferInstanceAs (Decidable (∀ d ∈ p.allDefns, ∀ e ∈ p.copies d, p.defines e = true))

/-- Does every closure name what it is entered with? -/
def NamesParams (p : Program) : Prop :=
  ∀ closure ∈ p.closures, ∀ t ∈ closure.params, t.isWildcard = false

instance (p : Program) : Decidable p.NamesParams :=
  inferInstanceAs (Decidable (∀ closure ∈ p.closures, ∀ t ∈ closure.params, t.isWildcard = false))

section Check

variable (hV : ∀ e, p.defines e = true → V.defn e)

include hV

theorem within_of_checkAtom {a : Atom} (h : p.checkAtom d a = .ok ()) : a.Within V := by
  cases a with
  | temp t =>
    refine V.named t ?_
    by_contra ht
    simp [checkAtom, ht] at h
  | top r =>
    obtain ⟨top, htop, -⟩ := bind_eq_ok_iff.mp h
    exact hV _ (defines_top_iff.mpr ⟨top, top_eq_ok_iff.mp htop⟩)
  | word _ | flag _ | external _ => trivial

theorem within_of_checkTail {t : Tail} (h : p.checkTail d t = .ok ()) : t.Within V := by
  obtain ⟨hatoms, hshape⟩ := checkTail_eq_ok_iff.mp h
  refine ⟨fun a ha => within_of_checkAtom hV (hatoms a ha), fun e he => hV e ?_⟩
  cases t with
  | call c =>
    obtain ⟨block, hblock, -⟩ := checkShape_call.mp hshape
    obtain rfl := Option.some.inj he
    exact defines_block_iff.mpr ⟨block, hblock⟩
  | closure k args =>
    obtain ⟨closure, hclosure, -⟩ := checkShape_closure.mp hshape
    obtain rfl := Option.some.inj he
    exact defines_closure_iff.mpr ⟨closure, hclosure⟩
  | ret _ | enter _ _ | data _ _ | sel _ _ _ | prim _ _ => cases he

theorem within_of_checkCode {code : Code} {bound : List Temp}
    (h : p.checkCode d code bound = .ok ()) : code.Within V := by
  have hcall {c : Call} (hc : p.checkTail d (.call c) = .ok ()) : c.Within V :=
    Tail.within_call.mp (within_of_checkTail hV hc)
  induction code generalizing bound with
  | done t => exact within_of_checkTail hV (checkCode_done.mp h)
  | bind vars t rest ih =>
    obtain ⟨ht, -, -, -, hrest⟩ := checkCode_bind.mp h
    exact ⟨within_of_checkTail hV ht, ih hrest⟩
  | assert a ctor rest ih =>
    obtain ⟨ha, -, hrest⟩ := checkCode_assert.mp h
    exact ⟨within_of_checkAtom hV ha, ih hrest⟩
  | branch test yes no =>
    obtain ⟨ha, hcalls⟩ := checkCode_branch.mp h
    exact ⟨within_of_checkAtom hV ha, hcall (hcalls yes (by simp)), hcall (hcalls no (by simp))⟩
  | switch a alts =>
    obtain ⟨ha, hcalls, -⟩ := checkCode_switch.mp h
    exact ⟨within_of_checkAtom hV ha, fun c hc => hcall (hcalls c hc)⟩

/-- A definition that passes the check is within any vocabulary that has all definitions. -/
theorem within_of_checkDefn {x : Outline} (h : p.checkDefn d = .ok ())
    (hx : p.outline? d = some x) : x.body.Within V := by
  cases d with
  | block b =>
    obtain ⟨block, hblock, -, hcode⟩ := checkDefn_block.mp h
    obtain rfl := Option.some.inj ((outline?_block hblock).symm.trans hx)
    exact within_of_checkCode hV hcode
  | closure k =>
    obtain ⟨closure, hclosure, -, htail⟩ := checkDefn_closure.mp h
    obtain rfl := Option.some.inj ((outline?_closure hclosure).symm.trans hx)
    exact within_of_checkTail hV htail
  | top t =>
    obtain ⟨top, htop, htail, -⟩ := checkDefn_top.mp h
    obtain rfl := Option.some.inj ((outline?_top htop).symm.trans hx)
    exact within_of_checkTail hV htail

end Check

theorem params_of_namesParams (h : p.NamesParams) {x : Outline} (hx : p.outline? d = some x) :
    ∀ t ∈ x.params, t.isWildcard = false := by
  cases d with
  | closure k =>
    obtain ⟨closure, hclosure, rfl⟩ := Option.map_eq_some_iff.mp hx
    exact h closure (Array.mem_of_getElem? hclosure)
  | block _ | top _ =>
    obtain ⟨_, -, rfl⟩ := Option.map_eq_some_iff.mp hx
    exact fun _ ht => by cases ht

end Program

namespace Charter

variable {w : Realms} {p : Program}

theorem unread_of_within {X : Set DefnId} {code : Code}
    {o : Options} (h : code.Within ((flatly o False).words w X)) : .temp .wildcard ∉ code.atoms :=
      fun hread =>
  (Code.within_iff.mp h).1 _ hread rfl

theorem named_of_defines {e : DefnId} (he : p.defines e = true) :
    ∃ l, (p.realms Set.univ fun _ => Set.univ).of e = some l := by
  obtain ⟨x, hx⟩ := outline?_of_defines he
  exact ⟨_, of_realms_eq_some.mpr ⟨trivial, x, hx, rfl⟩⟩

theorem fitting_of_copies (o : Options) {wildcard whole : Prop} (hcopies : p.KnowsCopies)
    (hbody : ∀ d x, p.outline? d = some x → x.body.Within ((flatly o wildcard whole).words
      (p.realms Set.univ fun _ => Set.univ) Set.univ))
    (hparams : ∀ d x, p.outline? d = some x → ∀ t ∈ x.params, (flatly o wildcard whole).Readable
      t) :
    (flatly o wildcard whole).Fitting (p.realms Set.univ fun _ => Set.univ) p := by
  refine ⟨id, @fun d l hl => ?_, @fun t l hl => ?_, fun _ d l hl => ?_, fun _ d x hx => ?_⟩
  · obtain ⟨-, x, hx, rfl⟩ := of_realms_eq_some.mp hl
    have hd := mem_allDefns.mpr (defines_of_outline? hx)
    have hcopy (e : DefnId) (he : e ∈ x.derived ++ x.replacement.toList) : p.defines e = true :=
      hcopies d hd e (by simpa only [copies, hx, Option.elim_some] using he)
    refine ⟨x, hx, rfl, ?_, hparams d x hx, fun e he => ?_, fun _ e he => ?_, fun _ _ h => h.elim⟩
    · cases d <;> exact hbody _ x hx
    · obtain ⟨m, hm⟩ := named_of_defines (hcopy e (List.mem_append_left _ he))
      exact ⟨m, hm, by simp⟩
    · exact named_of_defines (hcopy e (List.mem_append_right _ (by simp [he])))
  · obtain ⟨-, x, hx, rfl⟩ := of_realms_eq_some.mp hl
    exact ⟨trivial, subset_rfl⟩
  · obtain ⟨-, x, hx, rfl⟩ := of_realms_eq_some.mp hl
    rfl
  · exact named_of_defines (defines_of_outline? hx)

theorem fitting_of_check (o : Options) (hchecked : p.checkAll p.allDefns = .ok ())
    (hcopies : p.KnowsCopies) (hparams : p.NamesParams) :
    (flatly o False).Fitting (p.realms Set.univ fun _ => Set.univ) p := by
  refine fitting_of_copies o hcopies (fun d x hx => ?_) fun d x hx t ht => ?_
  · have hd := mem_allDefns.mpr (defines_of_outline? hx)
    refine within_of_checkDefn (fun e he => ?_) (checkAll_eq_ok_iff.mp hchecked d hd) hx
    obtain ⟨m, hm⟩ := named_of_defines he
    exact ⟨m, .inr hm, Set.subset_univ _⟩
  · exact readable_of_named (params_of_namesParams hparams hx t ht)

theorem Stands.wildcardUnread {o : Options} (h : (flatly o False).Stands w p) :
    p.WildcardUnread := by
  intro d hd code hcode
  obtain ⟨l, hl⟩ := h.defns d hd
  obtain ⟨x, hx, hfits⟩ := (h.holds id).fits (hl.resolve_left id)
  obtain ⟨y, hy, rfl⟩ := Option.map_eq_some_iff.mp hcode
  obtain rfl := Option.mem_unique hx hy
  exact unread_of_within hfits.body

end Charter

theorem Pass.throughout_shake {I : Program → Prop} {s : Workbench}
    (hI : ∀ q : Program, q.outline? = s.program.outline? → I q) : Throughout I shake s := by
  unfold shake
  have hcomponents : (endState (Edit.computeComponents s.program)).outline? =
    s.program.outline? := by
    rw [Edit.computeComponents_eq]
    cases Component.ofRoots s.program s.program.roots with
    | ok cs => exact s.program.outline?_setComponents cs
    | error f => rfl
  refine .bind (.edit (.of_outlines hcomponents) (hI _ rfl) (hI _ hcomponents))
    fun complaints s' hs' => ?_
  obtain ⟨q, hq, rfl⟩ := edit_eq_ok_iff.mp hs'
  rw [hq] at hcomponents
  split
  · have hsame := Edit.onlyNotes_countOccurrences q
    exact .edit (.of_outlines hsame.outlines) (hI _ hcomponents)
      (hI _ (hsame.outlines.trans hcomponents))
  · exact .of_same (hI _ hcomponents) rfl

/-- While the optimiser runs, no definition that is part of the program ever reads the wildcard, if
none did at first and no closure takes it as a parameter. -/
theorem Pass.throughout_wildcardUnread (o : Options) (fuel : Nat) {p : Program}
    (hchecked : p.checkAll p.allDefns = .ok ()) (hcopies : p.KnowsCopies) (hparams : p.NamesParams)
    (htemps : 0 < p.temps.size) :
    Throughout Program.WildcardUnread (optimise o fuel) { program := p } := by
  have hfitting := Charter.fitting_of_check o hchecked hcopies hparams
  -- At first it does not matter what is retained, as nothing at all reads the wildcard.
  have hstart (q : Program) (hq : q.outline? = p.outline?) : q.WildcardUnread := by
    intro d _ code hcode
    obtain ⟨x, hx, rfl⟩ := Option.map_eq_some_iff.mp hcode
    rw [hq] at hx
    obtain ⟨l, hl⟩ := Charter.named_of_defines (defines_of_outline? hx)
    obtain ⟨y, hy, hfits⟩ := hfitting.fits hl
    obtain rfl := Option.mem_unique hx hy
    exact Charter.unread_of_within hfits.body
  rw [optimise_eq]
  refine .bind (.look _ (hstart p rfl)) fun _ s hs => ?_
  obtain ⟨-, rfl⟩ := look_eq_ok_iff.mp hs
  refine .bind (throughout_shake hstart) fun _ s' hs' => ?_
  have hsafe := hfitting.safe (fun h => absurd h htemps.ne')
    (fun d hd => Charter.named_of_defines (List.mem_filter.mp hd).2) hs' (fun _ => .inl trivial)
      fuel
  exact hsafe.throughout.mono fun q ⟨w', hq⟩ => hq.wildcardUnread

/-- A closure over a pair, entered with a variable that it does not read. -/
def cell (param : Temp) : Program where
  temps := ⟨.replicate 5 none⟩
  datatypes := #[⟨"P", [⟨0, 0, 2, 1, "Pair"⟩]⟩]
  blocks := #[
    { params := [⟨1⟩]
      code := .bind [⟨2⟩] (.data ⟨0, 0, 2, 1, "Pair"⟩ [.temp ⟨1⟩, .temp ⟨1⟩])
        (.done (.closure ⟨0⟩ [.temp ⟨2⟩])) }]
  closures := #[
    { stored := [⟨3⟩]
      params := [param]
      tail := .ret [.temp ⟨3⟩] }]
  entrypoints := [.block ⟨0⟩]

def once : Options where
  maxPasses := 1
  inlining := false
  merging := false
  deriveDepth := 1

/-- The copy that is made of the closure passes its parameter on. -/
theorem Pass.throughout_wildcardUnread_cell :
    Throughout Program.WildcardUnread (optimise once 9) { program := cell ⟨4⟩ } ∧
      ∃ stats s closure, optimise once 9 { program := cell ⟨4⟩ } = .ok stats s ∧
        .closure ⟨1⟩ ∈ s.program.defns ∧ s.program.closures[1]? = some closure ∧
        ∃ t ∈ closure.params, .temp t ∈ closure.tail.atoms := by
  refine ⟨throughout_wildcardUnread once 9 (by decide +kernel) (by decide +kernel)
    (by decide +kernel) (by decide +kernel), ?_⟩
  obtain ⟨stats, s, hrun, htest⟩ := exists_ok (r := optimise once 9 { program := cell ⟨4⟩ })
    (fun _ s => decide (.closure ⟨1⟩ ∈ s.program.defns) && (s.program.closures[1]?).any
      fun closure =>
      closure.params.any fun t => closure.tail.atoms.contains (.temp t)) (by decide +kernel)
  simp only [Bool.and_eq_true, decide_eq_true_eq, Option.any_eq_true, List.any_eq_true,
    List.contains_iff_mem] at htest
  obtain ⟨hret, closure, hclosure, hread⟩ := htest
  exact ⟨stats, s, closure, hrun, hret, hclosure, hread⟩

/-- A closure that takes the wildcard gets a copy that reads it. -/
theorem Pass.not_throughout_wildcardUnread_cell :
    (cell .wildcard).check = .ok () ∧
      (∃ s, shake { program := cell .wildcard } = .ok () s) ∧
      ¬Throughout Program.WildcardUnread (optimise once 9) { program := cell .wildcard } := by
  refine ⟨by decide +kernel, ?_, fun h => ?_⟩
  · obtain ⟨⟨⟩, s, hs, -⟩ := exists_ok (r := shake { program := cell .wildcard })
      (fun _ _ => true) (by decide +kernel)
    exact ⟨s, hs⟩
  · have hend := h.atEnd
    generalize hq : (endState (optimise once 9 { program := cell .wildcard })).program = q at hend
    have htest : (decide (.closure ⟨1⟩ ∈ q.defns) && (q.body? (.closure ⟨1⟩)).any fun code =>
        code.atoms.contains (.temp .wildcard)) = true := by
      rw [← hq]
      decide +kernel
    simp only [Bool.and_eq_true, decide_eq_true_eq, Option.any_eq_true,
      List.contains_iff_mem] at htest
    obtain ⟨hret, code, hcode, hread⟩ := htest
    exact hend _ hret code hcode hread

end MonadicIR
