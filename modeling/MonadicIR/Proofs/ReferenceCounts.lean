import MonadicIR.Proofs.Components
import MonadicIR.Proofs.Counting

namespace MonadicIR

open Program List

namespace Atom

def refCount (d : DefnId) : Atom → Nat
  | top r => if .top r.top = d then 1 else 0
  | _ => 0

theorem count_reference? (d : DefnId) (a : Atom) :
    (a.reference?.toList.map Prod.fst).count d = a.refCount d := by
  cases a with
  | top r => simp [reference?, top?, refCount, count_cons]
  | temp | word | flag | external => rfl

theorem count_references (d : DefnId) (as : List Atom) :
    ((as.filterMap reference?).map Prod.fst).count d = (as.map (refCount d)).sum := by
  rw [filterMap_eq_flatMap_toList, map_flatMap, count_flatMap]
  exact congrArg List.sum (map_congr_left fun a _ => count_reference? d a)

theorem toList_reference? (a : Atom) : a.reference?.toList = [a].filterMap reference? := by
  simp [filterMap_eq_flatMap_toList]

theorem mem_map_references {d : DefnId} {as : List Atom} :
    d ∈ (as.filterMap reference?).map Prod.fst ↔ InAtoms d as := by
  simp [InAtoms, reference?]

theorem count_waiting (d : DefnId) (as : List Atom) :
    (as.filterMap reference?).count (d, true) = 0 :=
  count_eq_zero.mpr (by simp [reference?])

end Atom

def Call.refCount (d : DefnId) (c : Call) : Nat :=
  (if .block c.target = d then 1 else 0) + (c.args.map (Atom.refCount d)).sum

theorem Call.sum_refCount (d : DefnId) (cs : List Call) : (cs.map (refCount d)).sum =
    ((cs.flatMap args).map (Atom.refCount d)).sum + (cs.map fun c => DefnId.block c.target).count
      d := by
  induction cs with
  | nil => rfl
  | cons c cs ih =>
    simp only [map_cons, sum_cons, ih, refCount, flatMap_cons, map_append,
      sum_append, count_cons, beq_iff_eq]
    omega

namespace Tail

def refCount (d : DefnId) : Tail → Nat
  | ret args | data _ args | prim _ args => (args.map (Atom.refCount d)).sum
  | enter f args => f.refCount d + (args.map (Atom.refCount d)).sum
  | call c => c.refCount d
  | closure k args => (if .closure k = d then 1 else 0) + (args.map (Atom.refCount d)).sum
  | sel _ _ a => a.refCount d

def callCount (d : DefnId) : Tail → Nat
  | call c => if .block c.target = d then 1 else 0
  | _ => 0

theorem map_fst_references (waits : Bool) (t : Tail) :
    (t.references waits).map Prod.fst = t.refs := by
  have hatoms (as : List Atom) : (as.filterMap Atom.reference?).map Prod.fst =
      as.filterMap fun a => a.top?.map fun r => .top r.top := by
    simp [map_filterMap, Atom.reference?, Function.comp_def]
  cases t <;> simp [references, refs, hatoms]

theorem count_refs (d : DefnId) (t : Tail) : t.refs.count d = t.refCount d := by
  rw [← map_fst_references true]
  cases t <;>
    simp only [references, atoms, nil_append, cons_append, map_cons, count_cons,
      Atom.count_references, refCount, Call.refCount, map_nil, sum_cons, sum_nil,
      beq_iff_eq] <;>
    omega

theorem count_waiting (d : DefnId) (t : Tail) :
    (t.references true).count (d, true) = t.callCount d := by
  cases t <;> simp [references, callCount, Atom.count_waiting, count_cons]

theorem count_not_waiting (d : DefnId) (t : Tail) : (t.references false).count (d, true) = 0 := by
  cases t <;> simp [references, Atom.count_waiting]

end Tail

def Alts.refCount (d : DefnId) (alts : Alts) : Nat :=
  (alts.arms.map fun arm => arm.call.refCount d).sum + alts.default.elim 0 (Call.refCount d)

theorem Alts.refCount_eq (d : DefnId) (alts : Alts) :
    alts.refCount d = (alts.calls.map (Call.refCount d)).sum := by
  obtain ⟨arms, default⟩ := alts
  cases default <;> simp [refCount, calls, Function.comp_def]

namespace Code

def refCount (d : DefnId) : Code → Nat
  | done t => t.refCount d
  | bind _ tail rest => tail.refCount d + rest.refCount d
  | assert a _ rest => a.refCount d + rest.refCount d
  | branch test yes no => test.refCount d + yes.refCount d + no.refCount d
  | switch a alts => a.refCount d + alts.refCount d

def callCount (d : DefnId) : Code → Nat
  | bind _ tail rest => tail.callCount d + rest.callCount d
  | assert _ _ rest => rest.callCount d
  | _ => 0

theorem count_references (d : DefnId) (code : Code) :
    (code.references.map Prod.fst).count d = code.refCount d := by
  induction code with
  | done t => rw [references, Tail.map_fst_references, Tail.count_refs, refCount]
  | bind vars t rest ih =>
    rw [references, map_append, count_append, Tail.map_fst_references, Tail.count_refs, ih,
      refCount]
  | assert a ctor rest ih =>
    rw [references, map_append, count_append, Atom.count_reference?, ih, refCount]
  | branch test yes no =>
    simp only [references, atoms, map_append, count_append, Atom.count_references,
      map_cons, sum_cons, sum_append, map_nil, count_cons, count_nil,
      beq_iff_eq, refCount, Call.refCount]
    omega
  | switch a alts =>
    simp only [references, atoms, map_append, count_append, Atom.count_references,
      map_cons, sum_cons, map_map, Function.comp_def, refCount, Alts.refCount_eq,
      Call.sum_refCount]
    omega

theorem count_waiting (d : DefnId) (code : Code) :
    code.references.count (d, true) = code.callCount d := by
  induction code with
  | done t => exact t.count_not_waiting d
  | bind vars t rest ih => rw [references, count_append, Tail.count_waiting, ih, callCount]
  | assert a ctor rest ih =>
    rw [references, count_append, Atom.toList_reference?, Atom.count_waiting, ih, callCount,
      Nat.zero_add]
  | branch test yes no => simp [references, Atom.count_waiting, callCount]
  | switch a alts => simp [references, Atom.count_waiting, callCount, count_eq_zero]

theorem mem_refs_iff (d : DefnId) (code : Code) : d ∈ code.refs ↔ 0 < code.refCount d := by
  rw [← count_references, count_pos_iff]
  induction code with
  | done t => rw [references, Tail.map_fst_references, mem_refs_done]
  | bind vars t rest ih =>
    rw [references, map_append, mem_append, Tail.map_fst_references, ← ih, mem_refs_bind]
  | assert a ctor rest ih =>
    rw [references, map_append, mem_append, ← ih, mem_refs_assert, Atom.toList_reference?,
      Atom.mem_map_references]
  | branch test yes no =>
    simp only [mem_refs, tails, calls, references, map_append, mem_append,
      Atom.mem_map_references]
    grind
  | switch a alts =>
    simp only [mem_refs, tails, calls, references, map_append, mem_append,
      Atom.mem_map_references]
    grind

end Code

namespace Program

variable {p : Program} {d e : DefnId}

/-- How many references to `d` there are in the body of `e`. -/
def refCount (p : Program) (e d : DefnId) : Nat :=
  match e with
  | .block b => (p.blocks[b.index]?).elim 0 fun block => block.code.refCount d
  | .closure k => (p.closures[k.index]?).elim 0 fun closure => closure.tail.refCount d
  | .top t => (p.tops[t.index]?).elim 0 fun top => top.tail.refCount d

/-- How many of them are calls of a block in a binding or in a top-level. -/
def callCount (p : Program) (e d : DefnId) : Nat :=
  match e with
  | .block b => (p.blocks[b.index]?).elim 0 fun block => block.code.callCount d
  | .closure _ => 0
  | .top t => (p.tops[t.index]?).elim 0 fun top => top.tail.callCount d

theorem count_references {own : List Reference} (h : p.references e = .ok own) (d : DefnId) :
    (own.map Prod.fst).count d = p.refCount e d ∧ own.count (d, true) = p.callCount e d := by
  cases e with
  | block b =>
    obtain ⟨block, hb, rfl⟩ := map_eq_ok_iff.mp h
    simp [refCount, callCount, block_eq_ok_iff.mp hb, Code.count_references, Code.count_waiting]
  | closure k =>
    obtain ⟨closure, hk, rfl⟩ := map_eq_ok_iff.mp h
    simp [refCount, callCount, closure_eq_ok_iff.mp hk, Tail.map_fst_references, Tail.count_refs,
      Tail.count_not_waiting]
  | top t =>
    obtain ⟨top, ht, rfl⟩ := map_eq_ok_iff.mp h
    simp [refCount, callCount, top_eq_ok_iff.mp ht, Tail.map_fst_references, Tail.count_refs,
      Tail.count_waiting]

theorem count_allReferences {ds : List DefnId} {rs : List Reference}
    (h : p.allReferences ds = .ok rs)
    (d : DefnId) : (rs.map Prod.fst).count d = (ds.map (p.refCount · d)).sum ∧
      rs.count (d, true) = (ds.map (p.callCount · d)).sum := by
  induction ds generalizing rs with
  | nil =>
    obtain rfl := Except.ok.inj h
    exact ⟨rfl, rfl⟩
  | cons e ds ih =>
    obtain ⟨own, hown, h⟩ := bind_eq_ok_iff.mp h
    obtain ⟨rest, hrest, h⟩ := bind_eq_ok_iff.mp h
    obtain rfl := Except.ok.inj h
    obtain ⟨hrefs, hcalls⟩ := count_references hown d
    obtain ⟨hrefs', hcalls'⟩ := ih hrest
    simp [hrefs, hrefs', hcalls, hcalls']

theorem refers_iff_refCount : p.Refers e d ↔ 0 < p.refCount e d := by
  cases e with
  | block b =>
    rw [refers_block_iff, refCount]
    cases p.blocks[b.index]? <;> simp [Code.mem_refs_iff]
  | closure k =>
    rw [refers_closure_iff, refCount]
    cases p.closures[k.index]? <;> simp [← count_pos_iff, Tail.count_refs]
  | top t =>
    rw [refers_top_iff, refCount]
    cases p.tops[t.index]? <;> simp [← count_pos_iff, Tail.count_refs]

theorem Current.retained_iff_referred (h : p.Current) :
    p.Retained d ↔ d ∈ p.roots ∨ ∃ e, p.Retained e ∧ p.Refers e d := by
  have hdec := Component.decomposition_ofRoots h.components
  constructor
  · intro hd
    obtain ⟨root, hroot, hlead⟩ := (hdec.members d).mp hd
    obtain rfl | ⟨e, hpath, hed⟩ := hlead.cases_tail
    · exact .inl hroot
    · exact .inr ⟨e, (hdec.members e).mpr ⟨root, hroot, hpath⟩, hed⟩
  · rintro (hroot | ⟨e, he, hed⟩)
    · exact (hdec.members d).mpr ⟨d, hroot, .refl⟩
    · exact hdec.closed he hed

end Program

namespace Pass

theorem defns_of_shake {s s' : Workbench} (h : shake s = .ok () s') :
    s'.program.defns = Component.allMembers s'.program.components.toList := by
  obtain ⟨⟨hcurrent, -⟩, hroots⟩ := upToDate_of_shake h
  obtain ⟨cs, rs, -, hnone, -, rfl⟩ := shake_spec h
  obtain ⟨root, hroot⟩ := exists_mem_of_ne_nil _ (of_complaints_eq_nil hnone).2.1
  exact defns_of_retained (hcurrent.retained_iff_referred.mpr (.inl (hroots ▸ hroot)))

/-- The counts after a shake that finds nothing wrong are the numbers of references in the retained
definitions, and exactly these definitions are referred to or are entrypoints. -/
theorem shake_counts {s s' : Workbench} (h : shake s = .ok () s') :
    (∀ d, s'.program.defines d = true → ∃ notes, s'.program.notes d = .ok notes ∧
      notes.occurs = ((Component.allMembers s'.program.components.toList).map
        (s'.program.refCount · d)).sum + s'.program.entrypoints.count d ∧
      notes.calls = ((Component.allMembers s'.program.components.toList).map
        (s'.program.callCount · d)).sum ∧
      (0 < notes.occurs ↔ s'.program.Retained d)) ∧
    ∀ e, s'.program.defines e = true → ∃ callees, s'.program.callees e = .ok callees ∧
      ∀ d, d ∈ callees ↔ 0 < s'.program.refCount e d := by
  obtain ⟨⟨hcurrent, rs, hrs, htally⟩, hroots⟩ := upToDate_of_shake h
  rw [defns_of_shake h] at hrs
  refine ⟨fun d hd => ?_, fun e he => ?_⟩
  · obtain ⟨notes, hnotes⟩ := exists_notes_iff.mpr hd
    obtain ⟨hrefs, hcalls⟩ := count_allReferences hrs d
    refine ⟨notes, hnotes, ?_, ?_, ?_⟩ <;> rw [← htally d notes hnotes, tally]
    · rw [hrefs, Nat.add_comm]
    · exact hcalls
    · rw [hrefs, Nat.add_pos_iff_pos_or_pos, List.count_pos_iff, hcurrent.retained_iff_referred,
        hroots]
      simp only [refers_iff_refCount, List.sum_pos_iff_exists_pos_nat, List.mem_map,
        Retained, exists_exists_and_eq_and]
  · obtain ⟨callees, hcallees⟩ := defines_iff_callees.mp he
    refine ⟨callees, hcallees, fun d => ?_⟩
    rw [← refers_iff_refCount]
    refine ⟨fun hd => ⟨callees, hcallees, hd⟩, ?_⟩
    rintro ⟨_, h, hd⟩
    exact Except.ok.inj (hcallees.symm.trans h) ▸ hd

end Pass

/-- A block that is called from everywhere, and one that is left over. -/
def Program.popular : Program where
  temps := ⟨.replicate 4 none⟩
  blocks := #[
    { params := [⟨1⟩]
      code := .done (.ret [.temp ⟨1⟩]) },
    { params := []
      code := .bind [⟨2⟩] (.call ⟨⟨0⟩, [.top ⟨⟨0⟩, 0⟩]⟩)
        (.bind [⟨3⟩] (.closure ⟨0⟩ [])
          (.branch (.flag true) ⟨⟨0⟩, [.temp ⟨2⟩]⟩ ⟨⟨0⟩, [.top ⟨⟨0⟩, 0⟩]⟩)) },
    { params := []
      code := .jump ⟨⟨0⟩, [.word 2]⟩ }]
  closures := #[{ stored := [], params := [], tail := .call ⟨⟨0⟩, [.word 3]⟩ }]
  tops := #[{ lhs := [⟨"one", none⟩], tail := .call ⟨⟨0⟩, [.word 1]⟩ }]
  entrypoints := [.block ⟨1⟩, .block ⟨1⟩]

namespace Pass

/-- Of the five calls of the block two are waited for. The one that is left over is not counted. -/
theorem shake_counts_popular : ∃ s, Program.popular.shake = .ok () s ∧
    Component.allMembers s.program.components.toList =
      [.block ⟨0⟩, .top ⟨0⟩, .closure ⟨0⟩, .block ⟨1⟩] ∧
    (∃ notes, s.program.notes (.block ⟨0⟩) = .ok notes ∧ notes.occurs = 5 ∧ notes.calls = 2) ∧
    ∃ notes, s.program.notes (.block ⟨2⟩) = .ok notes ∧ ¬ 0 < notes.occurs := by
  obtain ⟨⟨⟩, s, hs, htest⟩ := exists_ok (r := popular.shake)
    (fun _ s => Component.allMembers s.program.components.toList ==
        [.block ⟨0⟩, .top ⟨0⟩, .closure ⟨0⟩, .block ⟨1⟩] &&
      (s.program.defines (.block ⟨0⟩) && s.program.defines (.block ⟨2⟩) &&
        ((Component.allMembers s.program.components.toList).map
          (s.program.refCount · (.block ⟨0⟩))).sum + s.program.entrypoints.count
            (.block ⟨0⟩) == 5 &&
        ((Component.allMembers s.program.components.toList).map
          (s.program.callCount · (.block ⟨0⟩))).sum == 2)) (by cbv)
  simp only [Bool.and_eq_true, beq_iff_eq, and_assoc] at htest
  obtain ⟨hmembers, hfirst, hlast, hoccurs, hcalls⟩ := htest
  obtain ⟨hcounts, -⟩ := shake_counts hs
  obtain ⟨notes, hnotes, ho, hc, -⟩ := hcounts (.block ⟨0⟩) hfirst
  obtain ⟨notes', hnotes', -, -, hiff⟩ := hcounts (.block ⟨2⟩) hlast
  exact ⟨s, hs, hmembers, ⟨notes, hnotes, ho.trans hoccurs, hc.trans hcalls⟩, notes', hnotes',
    by simp [hiff, Retained, hmembers]⟩

end Pass

end MonadicIR
