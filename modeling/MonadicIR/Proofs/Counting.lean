import MonadicIR.Proofs.TwoRuns

namespace MonadicIR

open Program

namespace Program

variable {p : Program}

/-- Counts these references in addition to those that are counted already. -/
def countMore (rs : List Reference) : View := fun d notes =>
  { notes with
    occurs := notes.occurs + (rs.map Prod.fst).count d
    calls := notes.calls + rs.count (d, true) }

/-- What is noted of a definition once these references have been counted. -/
def tally (p : Program) (rs : List Reference) : View := fun d notes =>
  { notes with
    occurs := p.entrypoints.count d + (rs.map Prod.fst).count d
    calls := rs.count (d, true)
    entrypoint := p.entrypoints.contains d }

theorem mem_allReferences {ds : List DefnId} {rs : List Reference} (h : p.allReferences ds = .ok rs)
    {r : Reference} : r ∈ rs ↔ ∃ d ∈ ds, ∃ own, p.references d = .ok own ∧ r ∈ own := by
  induction ds generalizing rs with
  | nil =>
    obtain rfl := Except.ok.inj h
    simp
  | cons d ds ih =>
    obtain ⟨own, hown, h⟩ := bind_eq_ok_iff.mp h
    obtain ⟨rest, hrest, h⟩ := bind_eq_ok_iff.mp h
    obtain rfl := Except.ok.inj h
    simp [ih hrest, hown]

/-- Components that are up to date remain so if the components that are noted are left alone. -/
theorem Current.mapNotes (h : p.Current) {f : View}
    (hf : ∀ d n c, f d { n with component := c } = { f d n with component := c }) :
    (p.mapNotes f).Current := by
  obtain ⟨cs, hcs, hsame⟩ := h
  refine ⟨cs, by rw [roots_mapNotes, ofRoots_mapNotes, hcs], ?_⟩
  let place : View := fun d notes =>
    { notes with component := (Component.positions (cs.map Component.members))[d]? }
  have hswap : (p.mapNotes f).mapNotes place = (p.mapNotes place).mapNotes f := by
    rw [mapNotes_mapNotes, mapNotes_mapNotes]
    exact congrArg p.mapNotes (funext fun d => funext fun n => (hf d n _).symm)
  calc (p.mapNotes f).setComponents cs
    _ = { (p.mapNotes f).mapNotes place with components := cs.toArray } := rfl
    _ = (p.setComponents cs).mapNotes f := by rw [hswap]; rfl
    _ = p.mapNotes f := by rw [hsame]

end Program

namespace Edit

variable {p p' : Program}

theorem countReferences_eq_ok_iff {rs : List Reference} : countReferences rs p = .ok () p' ↔
    (∀ r ∈ rs, p.defines r.1 = true) ∧ p' = p.mapNotes (countMore rs) := by
  induction rs generalizing p with
  | nil =>
    have hnone : countMore [] = fun _ notes => notes := by
      funext d notes
      simp [countMore]
    simp [countReferences, hnone, mapNotes_id]
  | cons r rs ih =>
    obtain ⟨d, waits⟩ := r
    let one : Program.View := fun e notes => if e = d then
      { notes with
        occurs := notes.occurs + 1
        calls := if waits then notes.calls + 1 else notes.calls } else notes
    have hmore : (p.mapNotes one).mapNotes (countMore rs) =
        p.mapNotes (countMore ((d, waits) :: rs)) := by
      rw [mapNotes_mapNotes]
      refine congrArg p.mapNotes (funext fun e => funext fun notes => ?_)
      by_cases he : e = d
      · subst e
        cases waits <;> simp [one, countMore, Nat.add_assoc, Nat.add_comm 1]
      · have hne : d ≠ e := Ne.symm he
        simp [one, countMore, he, hne]
    have hdefines : (p.mapNotes one).defines = p.defines := (p.sameBodies_mapNotes one).defines
    simp only [countReferences, modifyNotes, bind_ok_iff, read_eq_ok_iff,
      modify_ok_iff, exists_unit, modifyNotes_eq_mapNotes]
    rw [List.forall_mem_cons, ← hmore]
    constructor
    · rintro ⟨_, ⟨notes, _, ⟨hnotes, rfl⟩, rfl⟩, h⟩
      obtain ⟨hrest, rfl⟩ := ih.mp h
      rw [hdefines] at hrest
      exact ⟨⟨exists_notes_iff.mp ⟨notes, hnotes⟩, hrest⟩, rfl⟩
    · rintro ⟨⟨hd, hrest⟩, rfl⟩
      obtain ⟨notes, hnotes⟩ := exists_notes_iff.mpr hd
      exact ⟨_, ⟨notes, p, ⟨hnotes, rfl⟩, rfl⟩, ih.mpr ⟨by rwa [hdefines], rfl⟩⟩

theorem countOccurrences_eq_ok (h : countOccurrences p = .ok () p') :
    ∃ rs, p.allReferences p.defns = .ok rs ∧ (∀ r ∈ rs, p.defines r.1 = true) ∧
      p' = p.mapNotes (p.tally rs) := by
  simp only [countOccurrences, bind_ok_iff, modify_ok_iff, read_eq_ok_iff,
    countReferences_eq_ok_iff, resetCounts] at h
  obtain ⟨_, _, rfl, rs, _, ⟨hrs, rfl⟩, hdefined, rfl⟩ := h
  rw [defns_mapNotes, allReferences_mapNotes] at hrs
  rw [(p.sameBodies_mapNotes _).defines] at hdefined
  refine ⟨rs, hrs, hdefined, ?_⟩
  rw [mapNotes_mapNotes]
  refine congrArg p.mapNotes (funext fun d => funext fun notes => ?_)
  simp [countMore, tally]

end Edit

namespace Program

/-- The components and the counts are what computing them anew would give. -/
structure UpToDate (p : Program) : Prop where
  current : p.Current
  counts : ∃ rs, p.allReferences p.defns = .ok rs ∧ ∀ d notes, p.notes d = .ok notes →
    p.tally rs d notes = notes

namespace UpToDate

variable {p : Program} {d e : DefnId} {notes : Notes}

theorem entrypoint (h : p.UpToDate) (hnotes : p.notes d = .ok notes) :
    notes.entrypoint = p.entrypoints.contains d := by
  obtain ⟨rs, -, hcounts⟩ := h.counts
  rw [← hcounts d notes hnotes]
  rfl

theorem calls_pos (h : p.UpToDate) (hd : d ∈ p.defns) {own : List Reference}
    (hown : p.references d = .ok own) (hmem : (e, true) ∈ own) (hnotes : p.notes e = .ok notes) :
    0 < notes.calls := by
  obtain ⟨rs, hrs, hcounts⟩ := h.counts
  rw [← hcounts e notes hnotes]
  exact List.count_pos_iff.mpr ((mem_allReferences hrs).mpr ⟨d, hd, own, hown, hmem⟩)

end UpToDate

end Program

theorem Pass.shake_spec {s s' : Workbench} (h : shake s = .ok () s') : ∃ cs rs,
    Component.ofRoots s.program s.program.roots = .ok cs ∧ s.program.complaints cs = [] ∧
      (s.program.setComponents cs).allReferences (s.program.setComponents cs).defns = .ok rs ∧
      s' = { s with program :=
        (s.program.setComponents cs).mapNotes ((s.program.setComponents cs).tally rs) } := by
  obtain ⟨cs, q, hcs, hnone, hcount, rfl⟩ := shake_eq_ok h
  obtain ⟨rs, hrs, -, rfl⟩ := Edit.countOccurrences_eq_ok hcount
  exact ⟨cs, rs, hcs, hnone, hrs, rfl⟩

namespace Program

theorem upToDate_of_shake {s s' : Workbench} (h : Pass.shake s = .ok () s') :
    s'.program.UpToDate ∧ s'.program.roots = s'.program.entrypoints := by
  obtain ⟨cs, rs, hcs, hnone, hrs, rfl⟩ := Pass.shake_spec h
  refine ⟨⟨(current_setComponents hcs).mapNotes fun _ _ _ => rfl, rs, ?_, fun d notes hnotes => ?_⟩,
    ?_⟩
  · rw [defns_mapNotes, allReferences_mapNotes, hrs]
  · rw [notes_mapNotes] at hnotes
    obtain ⟨_, -, rfl⟩ := map_eq_ok_iff.mp hnotes
    rfl
  · rw [roots_mapNotes, (s.program.sameBodies_setComponents cs).roots rfl]
    exact (of_complaints_eq_nil hnone).1

end Program

end MonadicIR
