import MonadicIR.Optimiser.Liveness
import MonadicIR.Scope
import MonadicIR.Proofs.Passes

namespace MonadicIR

open Program List

namespace Code

variable {p : Program} {vars bound live : List Temp} {tail : Tail} {rest code : Code} {t : Temp}

theorem mem_openReads : t ∈ code.openReads bound ↔ t ∈ code.freeTemps ∧ t ∉ bound := by
  have mem_unbound (ts bound : List Temp) :
      t ∈ ts.filter (!bound.contains ·) ↔ t ∈ ts ∧ t ∉ bound := by simp
  have hopen (code : Code) (bound : List Temp) :
      t ∈ code.openReads bound ↔ t ∈ code.openReads [] ∧ t ∉ bound := by
    -- Bindings add to the list of bound variables, so it is not fixed in the induction.
    induction code generalizing bound with
    | bind vars tail rest ih =>
      simp only [openReads, mem_append, ih (bound ++ vars), ih ([] ++ vars), mem_unbound,
        not_mem_nil, not_or, not_false_eq_true, and_true, false_or]
      tauto
    | assert a ctor rest ih =>
      simp only [openReads, mem_append, ih bound, mem_unbound, not_mem_nil,
        not_false_eq_true, and_true]
      tauto
    | done | branch | switch => simp [openReads]
  rw [freeTemps, mem_distinct, hopen]

theorem mem_freeTemps_bind :
    t ∈ (bind vars tail rest).freeTemps ↔ t ∈ tail.temps ∨ t ∈ rest.freeTemps ∧ t ∉ vars := by
  rw [freeTemps, mem_distinct, openReads, mem_append, mem_openReads]
  simp

theorem mem_freeTemps_assert {a : Atom} {ctor : Ctor} :
    t ∈ (assert a ctor rest).freeTemps ↔ a.temp? = some t ∨ t ∈ rest.freeTemps := by
  rw [freeTemps, mem_distinct, openReads, mem_append, mem_openReads]
  simp

/-- Each variable that is bound is read later on, a binding without variables has an effect, and an
assertion is about a variable that is read later on, if it is about one. -/
def NothingDead : Code → Prop
  | bind vars tail rest =>
    (∀ v ∈ vars, v.isWildcard = false → v ∈ rest.freeTemps) ∧
      ((∀ v ∈ vars, v.isWildcard = true) → tail.hasNoEffect = false) ∧ rest.NothingDead
  | assert a _ rest => (∀ t, a = .temp t → t ∈ rest.freeTemps) ∧ rest.NothingDead
  | done _ | branch .. | switch .. => True

theorem mem_keepLive (ht : t.isWildcard = false) :
    t ∈ keepLive live vars ↔ t ∈ vars ∧ t ∈ live := by
  have hne : t ≠ .wildcard := by
    rintro rfl
    cases ht
  simp only [keepLive, mem_map]
  constructor
  · rintro ⟨v, hv, h⟩
    split at h
    · rename_i hkept
      subst v
      exact ⟨hv, by simpa [ht] using hkept⟩
    · exact absurd h.symm hne
  · rintro ⟨hv, hlive⟩
    exact ⟨t, hv, by simp [hlive]⟩

theorem mem_live_iff : t ∈ (code.liveness p).2.1 ↔ t ∈ (code.liveness p).1.freeTemps := by
  induction code with
  | bind vars tail rest ih =>
    unfold liveness
    dsimp only
    split
    · exact ih
    · rw [mem_freeTemps_bind, ← ih]
      simp [or_comm]
  | assert a ctor rest ih =>
    unfold liveness
    dsimp only
    split
    · rename_i u
      split
      · rename_i hlive
        rw [mem_freeTemps_assert, ← ih]
        refine ⟨.inr, ?_⟩
        rintro (⟨⟨⟩⟩ | h)
        · exact contains_iff_mem.mp hlive
        · exact h
      · exact ih
    · rename_i hnone
      have htemp : a.temp? ≠ some t := by
        cases a with
        | temp u => exact absurd rfl (hnone u)
        | word | flag | top | external => simp [Atom.temp?]
      rw [mem_freeTemps_assert, ← ih]
      simp [htemp]
  | done t => simp [liveness, freeTemps, openReads, mem_distinct, Tail.temps]
  | branch test yes no => simp [liveness, freeTemps, openReads, mem_distinct, tempsOf]
  | switch a alts => simp [liveness, freeTemps, openReads, mem_distinct, tempsOf]

theorem nothingDead_liveness (code : Code) : (code.liveness p).1.NothingDead := by
  induction code with
  | bind vars tail rest ih =>
    unfold liveness
    dsimp only
    split
    · exact ih
    · rename_i hkept
      refine ⟨fun v hv hw => mem_live_iff.mp ((mem_keepLive hw).mp hv).2, fun hall => ?_, ih⟩
      simpa [all_eq_true.mpr hall] using hkept
  | assert a ctor rest ih =>
    unfold liveness
    dsimp only
    split
    · split
      · rename_i u hlive
        refine ⟨?_, ih⟩
        rintro _ ⟨⟩
        exact mem_live_iff.mp (contains_iff_mem.mp hlive)
      · exact ih
    · rename_i hnone
      exact ⟨fun u hu => absurd hu (hnone u), ih⟩
  | done | branch | switch => trivial

end Code

namespace Program

variable {p : Program} {as : List Atom}

theorem replaceTop_of_none {a : Atom} (h : p.topValue? a = none) : p.replaceTop a = a := by
  rw [replaceTop, h, Option.getD_none]

theorem map_replaceTop (h : ∀ a ∈ as, p.topValue? a = none) : as.map p.replaceTop = as :=
  (map_congr_left fun a ha => replaceTop_of_none (h a ha)).trans as.map_id

theorem replaceTopReports_eq_nil (h : ∀ a ∈ as, p.topValue? a = none) :
    p.replaceTopReports as = [] := by
  refine filterMap_eq_nil_iff.mpr fun a ha => ?_
  rw [h a ha, Option.map_none]

end Program

variable {p : Program}

theorem Tail.mapAtoms_eq_self {t : Tail} {g : Atom → Atom} (h : ∀ a ∈ t.atoms, g a = a) :
    t.mapAtoms g = t := by
  have hmap : t.atoms.map g = t.atoms := (map_congr_left h).trans t.atoms.map_id
  cases t <;> simp_all [mapAtoms, atoms]

theorem Tail.replaceTops_eq_self {t : Tail} (h : ∀ a ∈ t.atoms, p.topValue? a = none) :
    t.replaceTops p = (t, []) := by
  rw [replaceTops, mapAtoms_eq_self fun a ha => replaceTop_of_none (h a ha),
    replaceTopReports_eq_nil h]

theorem Call.replaceTops_eq_self {c : Call} (h : ∀ a ∈ c.args, p.topValue? a = none) :
    c.replaceTops p = c := by
  rw [replaceTops, map_replaceTop h]

theorem Alts.mapCalls_eq_self {alts : Alts} {f : Call → Call} (h : ∀ c ∈ alts.calls, f c = c) :
    alts.mapCalls f = alts := by
  obtain ⟨arms, default⟩ := alts
  simp only [calls, forall_mem_append, forall_mem_map] at h
  have harms : arms.map (fun arm => (⟨arm.ctor, f arm.call⟩ : Arm)) = arms :=
    (map_congr_left fun arm harm => by rw [h.1 arm harm, id]).trans arms.map_id
  cases default with
  | none => simp only [mapCalls, harms, Option.map_none]
  | some c => simp only [mapCalls, harms, Option.map_some, h.2 c (mem_singleton_self c)]

namespace Code

variable {live vars : List Temp} {code : Code}

theorem keepLive_eq_self (h : ∀ v ∈ vars, v.isWildcard = false → v ∈ live) :
    keepLive live vars = vars ∧ deadReports live vars = [] := by
  have hkept (v : Temp) (hv : v ∈ vars) : (v.isWildcard || live.contains v) = true := by
    cases hw : v.isWildcard with
    | true => rfl
    | false => simpa using h v hv hw
  constructor
  · exact (map_congr_left fun v hv => by rw [if_pos (hkept v hv), id]).trans vars.map_id
  · rw [deadReports, filter_eq_nil_iff.mpr fun v hv => by rw [hkept v hv]; exact Bool.noConfusion]
    rfl

/-- The pass has nothing to do where nothing is dead and no operand can be replaced. -/
theorem liveness_eq_self (hdead : code.NothingDead)
    (htops : ∀ a ∈ code.atoms, p.topValue? a = none) :
    (code.liveness p).1 = code ∧ (code.liveness p).2.2 = [] := by
  induction code with
  | bind vars tail rest ih =>
    obtain ⟨hvars, heffect, hrest⟩ := hdead
    simp only [atoms, forall_mem_append] at htops
    obtain ⟨hcode, hreports⟩ := ih hrest htops.2
    have hlive (v : Temp) (hv : v ∈ vars) (hw : v.isWildcard = false) :
        v ∈ (rest.liveness p).2.1 := by
      rw [mem_live_iff, hcode]
      exact hvars v hv hw
    obtain ⟨hkeep, hnone⟩ := keepLive_eq_self hlive
    have hstays : ¬(vars.all Temp.isWildcard && tail.hasNoEffect) = true := fun h => by
      obtain ⟨hall, hquiet⟩ := (Bool.and_eq_true _ _).mp h
      rw [heffect (all_eq_true.mp hall)] at hquiet
      cases hquiet
    simp only [liveness, Tail.replaceTops_eq_self htops.1, hkeep, hnone, hcode, hreports]
    rw [if_neg hstays]
    exact ⟨rfl, rfl⟩
  | assert a ctor rest ih =>
    obtain ⟨htemp, hrest⟩ := hdead
    obtain ⟨hcode, hreports⟩ := ih hrest (forall_mem_cons.mp htops).2
    cases a with
    | temp t =>
      have hlive : (rest.liveness p).2.1.contains t = true := by
        rw [contains_iff_mem, mem_live_iff, hcode]
        exact htemp t rfl
      simp only [liveness, hlive, if_true, hcode, hreports, and_self]
    | word | flag | top | external => simp only [liveness, hcode, hreports, and_self]
  | done t => simp only [liveness, Tail.replaceTops_eq_self htops, and_self]
  | branch test yes no =>
    simp only [liveness, replaceTopReports_eq_nil htops, and_true]
    simp only [atoms, forall_mem_cons, forall_mem_append] at htops
    rw [replaceTop_of_none htops.1, Call.replaceTops_eq_self htops.2.1,
      Call.replaceTops_eq_self htops.2.2]
  | switch a alts =>
    simp only [liveness, replaceTopReports_eq_nil htops, and_true]
    simp only [atoms, forall_mem_cons, forall_mem_flatMap] at htops
    rw [replaceTop_of_none htops.1,
      Alts.mapCalls_eq_self fun c hc => Call.replaceTops_eq_self (htops.2 c hc)]

theorem atoms_liveness_subset (htops : ∀ a ∈ code.atoms, p.topValue? a = none) :
    (code.liveness p).1.atoms ⊆ code.atoms := by
  induction code with
  | bind vars tail rest ih =>
    simp only [atoms, forall_mem_append] at htops
    simp only [liveness, Tail.replaceTops_eq_self htops.1]
    split
    · exact fun a ha => mem_append_right _ (ih htops.2 ha)
    · exact append_subset.mpr ⟨subset_append_left .., fun a ha =>
        mem_append_right _ (ih htops.2 ha)⟩
  | assert a ctor rest ih =>
    have hrest := ih (forall_mem_cons.mp htops).2
    have hkept : (assert a ctor (rest.liveness p).1).atoms ⊆ (assert a ctor rest).atoms :=
      cons_subset_cons a hrest
    unfold liveness
    dsimp only
    split
    · split
      · exact hkept
      · exact fun b hb => .tail _ (hrest hb)
    · exact hkept
  | done t =>
    rw [(liveness_eq_self (show (done t).NothingDead from trivial) htops).1]
    exact List.Subset.refl _
  | branch test yes no =>
    rw [(liveness_eq_self (show (branch test yes no).NothingDead from trivial) htops).1]
    exact List.Subset.refl _
  | switch a alts =>
    rw [(liveness_eq_self (show (switch a alts).NothingDead from trivial) htops).1]
    exact List.Subset.refl _

end Code

namespace Pass

theorem reportAll_eq (texts : List String) (s : Workbench) : reportAll texts s = .ok ()
    { s with
      log := s.log ++ (texts.map (Change.mk s.current)).toArray
      count := s.count + texts.length } := by
  induction texts generalizing s with
  | nil => simp [reportAll, pure, EStateM.pure]
  | cons text texts ih =>
    refine (ih _).trans ?_
    simp [Nat.add_assoc, Nat.add_comm 1]

theorem liveness_eq (code : Code) (s : Workbench) :
    liveness code s = .ok (code.liveness s.program).1
      { s with
        log := s.log ++ ((code.liveness s.program).2.2.map (Change.mk s.current)).toArray
        count := s.count + (code.liveness s.program).2.2.length } := by
  change (reportAll _ >>= fun _ => pure _) s = _
  simp only [bind, EStateM.bind, reportAll_eq]
  rfl

/-- What liveness leaves has nothing dead in it, and the live variables are those that are free
there. If no operand of the code refers to a top-level that only returns a constant or another
top-level, a second run gives the same code and reports nothing. -/
theorem liveness_leaves_nothing_dead (code : Code) (s : Workbench) :
    ∃ s', liveness code s = .ok (code.liveness s.program).1 s' ∧ s'.program = s.program ∧
      (code.liveness s.program).1.NothingDead ∧
      (∀ t, t ∈ (code.liveness s.program).2.1 ↔ t ∈ (code.liveness s.program).1.freeTemps) ∧
      ((∀ a ∈ code.atoms, s.program.topValue? a = none) →
        liveness (code.liveness s.program).1 s' = .ok (code.liveness s.program).1 s') := by
  refine ⟨_, liveness_eq code s, rfl, code.nothingDead_liveness, fun _ => Code.mem_live_iff,
    fun htops => ?_⟩
  obtain ⟨hcode, hreports⟩ := Code.liveness_eq_self (code.nothingDead_liveness)
    fun a ha => htops a (Code.atoms_liveness_subset htops ha)
  rw [liveness_eq, hcode, hreports]
  simp

/-- The second and the third binding and the assertion are only there for each other. -/
def tangle : Code :=
  .bind [⟨1⟩, ⟨2⟩] (.call ⟨⟨0⟩, [.temp ⟨5⟩]⟩) <|
    .bind [⟨3⟩] (.prim .add [.temp ⟨1⟩, .word 1]) <|
    .bind [⟨4⟩] (.prim .add [.temp ⟨3⟩, .temp ⟨2⟩]) <|
    .assert (.temp ⟨4⟩) ⟨0, 0, 0, 1, "Unit"⟩ <|
    .bind [] (.prim .print [.temp ⟨1⟩]) <|
    .done (.ret [.temp ⟨5⟩])

def untangled : Code :=
  .bind [⟨1⟩, .wildcard] (.call ⟨⟨0⟩, [.temp ⟨5⟩]⟩) <|
    .bind [] (.prim .print [.temp ⟨1⟩]) <|
    .done (.ret [.temp ⟨5⟩])

theorem liveness_leaves_nothing_dead_tangle :
    (∀ a ∈ tangle.atoms, ({} : Program).topValue? a = none) ∧ ∃ s',
      liveness tangle { program := {} } = .ok untangled s' ∧
        liveness untangled s' = .ok untangled s' := by
  have htops : ∀ a ∈ tangle.atoms, ({} : Program).topValue? a = none := by decide
  have hcode : (tangle.liveness {}).1 = untangled := by decide
  obtain ⟨s', hfirst, -, -, -, hsecond⟩ := liveness_leaves_nothing_dead tangle { program := {} }
  rw [hcode] at hfirst hsecond
  exact ⟨htops, s', hfirst, hsecond htops⟩

end Pass

end MonadicIR
