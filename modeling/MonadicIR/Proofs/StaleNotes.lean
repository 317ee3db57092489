import MonadicIR.Proofs.StaysAccepted
import MonadicIR.Proofs.TwoRuns

namespace MonadicIR

open Component Edit Pass Program

namespace Program

variable {p q : Program} {D E : Set DefnId} {d e : DefnId}

open Classical in
/-- Hides whether these definitions never return. -/
noncomputable def conceal (D : Set DefnId) : View := fun d n =>
  if d ∈ D then { n with neverReturns := false } else n

theorem conceal_of_notMem (hd : d ∉ D) (n : Notes) : conceal D d n = n := if_neg hd

theorem conceal_of_mem (hd : d ∈ D) (n : Notes) :
    conceal D d n = { n with neverReturns := false } :=
  if_pos hd

theorem conceal_conceal (d : DefnId) (n : Notes) : conceal D d (conceal D d n) = conceal D d n := by
  by_cases hd : d ∈ D
  · simp only [conceal_of_mem hd]
  · simp only [conceal_of_notMem hd]

/-- Shows nothing but which of the other definitions never return. -/
noncomputable def flags (D : Set DefnId) : View := fun d n =>
  { neverReturns := (conceal D d n).neverReturns }

noncomputable def placed (D : Set DefnId) : View := fun d n =>
  { component := n.component, neverReturns := (conceal D d n).neverReturns }

def bodyOf (p : Program) : DefnId → Except Fault Code
  | .block b => (p.block b).map Block.code
  | .closure k => (p.closure k).map fun x => .done x.tail
  | .top t => (p.top t).map fun x => .done x.tail

theorem bodyOf_mapNotes (p : Program) (f : View) (d : DefnId) :
    (p.mapNotes f).bodyOf d = p.bodyOf d := by
  cases d <;> simp only [bodyOf, block_mapNotes, closure_mapNotes, top_mapNotes, except_map_map]

theorem SameUpTo.modifyNotes {f f' : View} {g : Notes → Notes} (h : SameUpTo f p q)
    (hd : ∀ n, f' d (g (f d n)) = f' d (g n)) (hother : ∀ e ≠ d, ∀ n, f' e (f e n) = f' e n) :
    SameUpTo f' (p.modifyNotes d g) (q.modifyNotes d g) := by
  rw [modifyNotes_eq_mapNotes, modifyNotes_eq_mapNotes]
  refine h.map fun e n => ?_
  by_cases he : e = d
  · subst he
    simpa only [if_true] using hd n
  · simpa only [if_neg he] using hother e he n

end Program

namespace Edit

variable {d : DefnId} {g : Notes → Notes} {R : Program → Program → Prop}
  {S : Unit → Program → Program → Prop}

theorem modifyNotes_eq (d : DefnId) (g : Notes → Notes) (p : Program) :
    modifyNotes d g p = match p.notes d with
      | .ok _ => .ok () (p.modifyNotes d g)
      | .error e => .error e p := by
  simp only [modifyNotes, Edit.read, bind, EStateM.bind]
  cases p.notes d <;> rfl

theorem Parallel.modifyNotes {f : Program.View} (hR : ∀ p q, R p q → SameUpTo f p q)
    (hS : ∀ p q, R p q → S () (p.modifyNotes d g) (q.modifyNotes d g)) :
    Parallel R (modifyNotes d g) S := by
  intro p q hpq
  have hnotes := congrArg (notes · d) (hR p q hpq)
  simp only [notes_mapNotes] at hnotes
  rw [modifyNotes_eq, modifyNotes_eq]
  cases hp : p.notes d with
  | ok n =>
    cases hq : q.notes d with
    | ok m => exact .ok (hS p q hpq)
    | error e => simp [hp, hq, Except.map] at hnotes
  | error e =>
    cases hq : q.notes d with
    | ok m => simp [hp, hq, Except.map] at hnotes
    | error e' =>
      obtain rfl : e = e' := by simpa [hp, hq, Except.map] using hnotes
      exact .error (hR p q hpq).toBlank

end Edit

/-- No definition belongs to, or refers to, a component that comes later than its own. -/
def Component.CalleesFirst (p : Program) (cs : List Component) : Prop :=
  cs.Pairwise fun c later => ∀ d ∈ c.members, ∀ e ∈ later.members, d ≠ e ∧ ¬p.Refers d e

theorem Component.calleesFirst_ofRoots {p : Program} {roots : List DefnId} {cs : List Component}
    (h : ofRoots p roots = .ok cs) : CalleesFirst p cs := by
  have hdec := decomposition_ofRoots h
  have hapart := List.pairwise_iff_getElem.mp (List.nodup_flatMap.mp hdec.nodup).2
  refine List.pairwise_iff_getElem.mpr fun i j hi hj hij d hd e he => ⟨?_, fun hde => ?_⟩
  · rintro rfl
    exact hapart i j hi hj hij hd he
  · have hi' := List.getElem?_eq_getElem hi
    have huses := ((hdec.uses i _ hi').2 j).mpr
      ⟨Nat.ne_of_gt hij, _, List.getElem?_eq_getElem hj, d, hd, e, he, hde⟩
    exact absurd (hdec.calleesFirst i _ hi' j huses) (Nat.not_lt.mpr (le_of_lt hij))

namespace Program

variable {p q : Program} {D E : Set DefnId} {d e : DefnId}

/-- The programs to start with. -/
structure Start (D : Set DefnId) (p q : Program) : Prop where
  same : SameUpTo (flags D) p q
  reached : ∀ d ∈ D, p.ReachedFrom p.roots d

/-- What a shaken program has, whatever its notes are. -/
structure Shaken (D : Set DefnId) (p : Program) : Prop where
  order : Component.CalleesFirst p p.components.toList
  retained : ∀ d ∈ D, p.Retained d

/-- The programs once the first of them was shaken: only the flags of `D` may differ. -/
structure Aligned (D : Set DefnId) (p q : Program) : Prop where
  same : SameUpTo (conceal D) p q
  shaken : p.Shaken D

theorem Shaken.of_le (h : p.Shaken D) (hcomps : q.components = p.components)
    (hrefers : ∀ d e, q.Refers d e → p.Refers d e) : q.Shaken D := by
  refine ⟨?_, fun d hd => ?_⟩
  · rw [hcomps]
    refine h.order.imp fun hlater d hd e he => ?_
    exact ⟨(hlater d hd e he).1, fun hde => (hlater d hd e he).2 (hrefers d e hde)⟩
  · simpa only [Retained, hcomps] using h.retained d hd

theorem Shaken.mapNotes (h : p.Shaken D) (f : View) : (p.mapNotes f).Shaken D :=
  h.of_le rfl fun _ _ hde => by rwa [refers_mapNotes] at hde

theorem Shaken.modifyNotes (h : p.Shaken D) (d : DefnId) (f : Notes → Notes) :
    (p.modifyNotes d f).Shaken D := by
  rw [modifyNotes_eq_mapNotes]
  exact h.mapNotes _

theorem shaken_setComponents {cs : List Component} (hcs : ofRoots p p.roots = .ok cs)
    (hD : ∀ d ∈ D, p.ReachedFrom p.roots d) : (p.setComponents cs).Shaken D := by
  have hrefers : (p.setComponents cs).Refers = p.Refers := by
    funext d e
    simp only [Refers, (p.sameBodies_setComponents cs).callees]
  refine ⟨?_, fun d hd => ?_⟩
  · change CalleesFirst (p.setComponents cs) cs
    rw [CalleesFirst, hrefers]
    exact calleesFirst_ofRoots hcs
  · exact ((decomposition_ofRoots hcs).members d).mpr (hD d hd)

theorem SameUpTo.setComponents (h : SameUpTo (flags D) p q) (cs : List Component) :
    SameUpTo (placed D) (p.setComponents cs) (q.setComponents cs) := by
  have hmap := h.map (k := placed D)
    (g := fun d n => { n with component := (positions (cs.map members))[d]? })
    (fun d n => by by_cases hd : d ∈ D <;> simp [placed, flags, conceal, hd])
  exact congrArg (fun p : Program => { p with components := cs.toArray }) hmap

theorem SameUpTo.resetCounts (h : SameUpTo (placed D) p q) :
    SameUpTo (conceal D) p.resetCounts q.resetCounts := by
  have hentry : p.entrypoints = q.entrypoints := h.congr fun _ => rfl
  unfold Program.resetCounts
  rw [hentry]
  refine h.map fun d n => ?_
  by_cases hd : d ∈ D <;> simp [placed, conceal, hd]

end Program

section Shake

variable {D : Set DefnId}

open Program

theorem Edit.parallel_computeComponents : Parallel (Start D) computeComponents
    fun _ p q => SameUpTo (placed D) p q ∧ p.Shaken D := by
  intro p q h
  have hroots : p.roots = q.roots := h.same.congr fun p => p.roots_mapNotes _
  have hofRoots : ofRoots p = ofRoots q :=
    h.same.congr fun p => funext (p.ofRoots_mapNotes _)
  have hcomplaints : p.complaints = q.complaints :=
    h.same.congr fun p => funext (p.complaints_mapNotes _)
  rw [computeComponents_eq, computeComponents_eq, ← hroots, ← hofRoots]
  cases hcs : ofRoots p p.roots with
  | ok cs =>
    simp only [← hcomplaints]
    exact .ok ⟨h.same.setComponents cs, shaken_setComponents hcs h.reached⟩
  | error f => exact .error h.same.toBlank

theorem Edit.parallel_countReferences (rs : List Reference) :
    Parallel (Aligned D) (countReferences rs) fun _ => Aligned D := by
  induction rs with
  | nil => exact .pure fun _ _ h => h
  | cons r rs ih =>
    refine .bind (.modifyNotes (fun _ _ h => h.same) fun p q h => ?_) fun _ => ih
    refine ⟨h.same.modifyNotes (fun n => ?_) fun _ _ n => conceal_conceal _ n,
      h.shaken.modifyNotes _ _⟩
    by_cases hd : r.1 ∈ D <;> simp [conceal, hd]

theorem Edit.parallel_countOccurrences :
    Parallel (fun p q => SameUpTo (placed D) p q ∧ p.Shaken D) countOccurrences
      fun _ => Aligned D := by
  refine .bind (.modify (S := fun _ => Aligned D) fun p q h => ⟨h.1.resetCounts, h.2.mapNotes _⟩)
    fun _ => ?_
  refine .bind (.read (S := fun _ => Aligned D) (fun _ _ h => h.same.toBlank) (fun p q h => ?_)
    fun _ _ _ h _ => h) fun rs => parallel_countReferences rs
  refine h.same.congr (F := fun p => p.allReferences p.defns) fun p => ?_
  rw [defns_mapNotes, allReferences_mapNotes]

theorem Pass.parallel_shake : Parallel (Start D) shake fun _ => Aligned D := by
  refine .bind (.edit parallel_computeComponents) fun complaints => ?_
  split
  · exact .edit parallel_countOccurrences
  · exact MonadicIR.Parallel.throw fun s t h => ⟨h.program.1.toBlank, h.current, h.log, h.count⟩

end Shake

section Cases

variable {D : Set DefnId}

open Program

theorem Code.simplifyCases_mapNotes (code : Code) (p : Program) (f : View) :
    code.simplifyCases (p.mapNotes f) = code.simplifyCases p := by
  induction code with
  | done _ | branch _ _ _ | switch _ _ => rfl
  | bind vars t rest ih | assert a ctor rest ih => simp only [Code.simplifyCases, ih]

theorem Code.refs_simplifyCases {code code' : Code} {p : Program} {texts : List String}
    (h : code.simplifyCases p = .ok (code', texts)) {X : Set DefnId}
    (hrefs : ∀ d ∈ code.refs, d ∈ X) : ∀ d ∈ code'.refs, d ∈ X := by
  let V : Vocabulary := ⟨fun _ => True, fun d => d ∈ X, fun _ _ => trivial⟩
  have hcode : code.Within V := Code.within_of_refs (fun _ => trivial) hrefs
  exact (Code.within_iff.mp (hcode.simplifyCases h)).2

theorem Edit.modifyBlock_code_eq (b : BlockId) (code : Code) (p : Program) :
    modifyBlock b (fun block => { block with code }) p = match p.block b with
      | .ok _ => .ok () (p.setCode b code)
      | .error e => .error e p := by
  simp only [modifyBlock, Edit.read, bind, EStateM.bind]
  cases hblock : p.block b with
  | error e => rfl
  | ok block =>
    have hset := setIfInBounds_eq_modify (block_eq_ok_iff.mp hblock) fun x => { x with code }
    simp only [setCode, ← hset]
    rfl

theorem Program.refers_setCode {p : Program} {b : BlockId} {code : Code} {d e : DefnId}
    (hcode : ∀ e ∈ code.refs, p.Refers (.block b) e) (h : (p.setCode b code).Refers d e) :
    p.Refers d e := by
  obtain ⟨x, hx, he⟩ := refers_iff.mp h
  by_cases hd : d = .block b
  · subst hd
    simp only [outline?, setCode, Array.getElem?_modify, if_true, Option.map_map,
      Option.map_eq_some_iff] at hx
    obtain ⟨block, -, rfl⟩ := hx
    exact hcode e he
  · refine refers_iff.mpr ⟨x, ?_, he⟩
    rw [← hx]
    cases d with
    | closure _ | top _ => rfl
    | block c =>
      have hne : b.index ≠ c.index := fun hbc => hd (by cases b; cases c; cases hbc; rfl)
      simp only [outline?, setCode, Array.getElem?_modify, if_neg hne]

theorem Program.Aligned.setCode {p q : Program} (h : Aligned D p q) {b : BlockId} {code : Code}
    (hcode : ∀ e ∈ code.refs, p.Refers (.block b) e) :
    Aligned D (p.setCode b code) (q.setCode b code) :=
  ⟨h.same.setCode b code, h.shaken.of_le rfl fun _ _ => refers_setCode hcode⟩

theorem Pass.look_bind_map {α β γ : Type} (f : Program → Except Fault α) (g : α → β)
    (k : β → Pass γ) : (look f >>= fun a => k (g a)) = look (fun p => (f p).map g) >>= k := by
  funext s
  obtain ⟨p, current, log, count⟩ := s
  simp only [look, edit, Edit.read, bind, EStateM.bind]
  cases f p <;> rfl

theorem Pass.parallel_simplifyBlock (d : DefnId) :
    Parallel (Aligned D) (simplifyBlock d) fun _ => Aligned D := by
  cases d with
  | closure _ | top _ => exact .pure fun _ _ h => h
  | block b =>
    let Known (code : Code) (p q : Program) : Prop :=
      Aligned D p q ∧ ∀ e ∈ code.refs, p.Refers (.block b) e
    unfold simplifyBlock
    refine .bind (.workOn _) fun _ => ?_
    rw [look_bind_map (·.block b) Block.code fun code => simplifyCode code >>= fun code =>
      edit (modifyBlock b fun block => { block with code })]
    refine .bind (.look (S := Known) (fun _ _ h => h.same.toBlank) (fun p q h => ?_)
      fun code p q h hcode => ⟨h, fun e he => ?_⟩) fun code => ?_
    · exact h.same.congr (F := (·.bodyOf (.block b))) fun p => p.bodyOf_mapNotes _ _
    · obtain ⟨block, hblock, rfl⟩ := map_eq_ok_iff.mp hcode
      exact refers_iff.mpr ⟨_, outline?_block (block_eq_ok_iff.mp hblock), he⟩
    have hsimplify : Parallel (Known code) (simplifyCode code) Known := by
      refine .bind (.look (S := fun r => Known r.1) (fun _ _ h => h.1.same.toBlank) (fun p q h =>
        ?_) fun r p q h hr => ⟨h.1, ?_⟩) fun r => .announce r fun _ _ h => h
      · exact h.1.same.congr (F := code.simplifyCases) fun p => code.simplifyCases_mapNotes p _
      · exact Code.refs_simplifyCases (X := {e | p.Refers (.block b) e}) hr h.2
    refine .bind hsimplify fun code => .edit fun p q h => ?_
    have hblock : (p.block b).map Block.code = (q.block b).map Block.code :=
      h.1.same.congr (F := (·.bodyOf (.block b))) fun p => p.bodyOf_mapNotes _ _
    rw [modifyBlock_code_eq, modifyBlock_code_eq]
    cases hp : p.block b with
    | ok x =>
      cases hq : q.block b with
      | ok y => exact .ok (h.1.setCode h.2)
      | error e => simp [hp, hq, Except.map] at hblock
    | error e =>
      cases hq : q.block b with
      | ok y => simp [hp, hq, Except.map] at hblock
      | error e' =>
        obtain rfl : e = e' := by simpa [hp, hq, Except.map] using hblock
        exact .error h.1.same.toBlank

theorem Pass.parallel_simplifyCases : Parallel (Aligned D) simplifyCases fun _ => Aligned D := by
  refine .get_bind (F := defns) (f := fun ds => do forEach simplifyBlock ds; workOn none)
    (fun p q h => h.same.congr fun p => p.defns_mapNotes _) fun ds => ?_
  exact .bind (.forEach parallel_simplifyBlock ds) fun _ => .workOn none

end Cases

namespace Program

theorem codeNeverReturns_congr {p q : Program} {code : Code}
    (h : ∀ c ∈ code.calls, p.callNeverReturns c = q.callNeverReturns c) :
    p.codeNeverReturns code = q.codeNeverReturns code := by
  have htail {t : Tail} (ht : ∀ c, t.call? = some c → p.callNeverReturns c = q.callNeverReturns c) :
      p.tailNeverReturns t = q.tailNeverReturns t := by
    cases t with
    | call c => exact ht c rfl
    | ret _ | enter _ _ | data _ _ | closure _ _ | sel _ _ _ | prim _ _ => rfl
  have hcalls {cs : List Call} (hcs : ∀ c ∈ cs, p.callNeverReturns c = q.callNeverReturns c) :
      p.callsNeverReturn cs = q.callsNeverReturn cs := by
    induction cs with
    | nil => rfl
    | cons c cs ih =>
      obtain ⟨hc, hcs⟩ := List.forall_mem_cons.mp hcs
      simp only [callsNeverReturn, hc, ih hcs]
  induction code with
  | done t => exact htail fun c hc => h c (by simp [Code.calls, hc])
  | bind vars t rest ih =>
    have ht : p.tailNeverReturns t = q.tailNeverReturns t :=
      htail fun c hc => h c (by simp [Code.calls, hc])
    simp only [codeNeverReturns, ht, ih fun c hc => h c (List.mem_append_right _ hc)]
  | assert a ctor rest ih => exact ih h
  | branch test yes no =>
    simp only [codeNeverReturns, h yes (by simp [Code.calls]), h no (by simp [Code.calls])]
  | switch a alts => exact hcalls h

theorem defnNeverReturns_eq (p : Program) (d : DefnId) :
    p.defnNeverReturns d = p.bodyOf d >>= p.codeNeverReturns := by
  cases d <;> simp only [defnNeverReturns, bodyOf, except_map_bind] <;> rfl

theorem refers_of_bodyOf {p : Program} {d : DefnId} {code : Code} (h : p.bodyOf d = .ok code)
    {c : Call} (hc : c ∈ code.calls) : p.Refers d (.block c.target) := by
  have he : .block c.target ∈ code.refs := Code.mem_refs.mpr (.inr (.inl ⟨c, hc, rfl⟩))
  cases d with
  | block b =>
    obtain ⟨x, hx, rfl⟩ := map_eq_ok_iff.mp h
    exact refers_iff.mpr ⟨_, outline?_block (block_eq_ok_iff.mp hx), he⟩
  | closure k =>
    obtain ⟨x, hx, rfl⟩ := map_eq_ok_iff.mp h
    exact refers_iff.mpr ⟨_, outline?_closure (closure_eq_ok_iff.mp hx), he⟩
  | top t =>
    obtain ⟨x, hx, rfl⟩ := map_eq_ok_iff.mp h
    exact refers_iff.mpr ⟨_, outline?_top (top_eq_ok_iff.mp hx), he⟩

end Program

namespace Edit

variable {p0 : Program} {E : Set DefnId}

open Program

/-- Which definitions of `E` never return is all that may differ. Both programs are the first one,
with other notes. -/
def Differ (p0 : Program) (E : Set DefnId) (p q : Program) : Prop :=
  SameUpTo (conceal E) p q ∧ SameUpTo blank p0 p

theorem parallel_noteNeverReturns (v : Bool) (d : DefnId) :
    Parallel (Differ p0 E) (noteNeverReturns v d) fun _ => Differ p0 (E \ {d}) := by
  refine .modifyNotes (fun _ _ h => h.1) fun p q h => ⟨h.1.modifyNotes (fun n => ?_) fun e he n =>
    ?_, ?_⟩
  · by_cases hE : d ∈ E <;> simp only [conceal, hE, if_true, if_false]
  · by_cases hE : e ∈ E
    · simp only [conceal_of_mem (show e ∈ E \ {d} from ⟨hE, he⟩)]
      rw [conceal_of_mem hE]
    · rw [conceal_of_notMem hE]
  · rw [modifyNotes_eq_mapNotes]
    unfold SameUpTo
    rw [mapNotes_mapNotes]
    exact h.2

theorem parallel_supposeAll (ds : List DefnId) :
    Parallel (Differ p0 E) (supposeAll ds) fun _ => Differ p0 (E \ {d | d ∈ ds}) := by
  induction ds generalizing E with
  | nil => exact .pure fun _ _ h => by simpa using h
  | cons d ds ih =>
    have hdiff : E \ {e | e ∈ d :: ds} = (E \ {d}) \ {e | e ∈ ds} := by
      ext e
      simp [and_assoc]
    rw [hdiff]
    exact .bind (parallel_noteNeverReturns true d) fun _ => ih

theorem Differ.defnNeverReturns {p q : Program} {d : DefnId} (h : Differ p0 E p q)
    (hd : ∀ e, p0.Refers d e → e ∉ E) : p.defnNeverReturns d = q.defnNeverReturns d := by
  have hbody : p.bodyOf d = q.bodyOf d := h.1.congr (F := (·.bodyOf d)) fun p =>
    p.bodyOf_mapNotes _ d
  have hbody0 : p0.bodyOf d = p.bodyOf d := h.2.congr (F := (·.bodyOf d)) fun p =>
    p.bodyOf_mapNotes _ d
  rw [defnNeverReturns_eq, defnNeverReturns_eq, ← hbody]
  cases hcode : p.bodyOf d with
  | error e => rfl
  | ok code =>
    refine codeNeverReturns_congr fun c hc => ?_
    have hnotes := h.1.notes (conceal_of_notMem (hd _ (refers_of_bodyOf (hbody0.trans hcode) hc)))
    have hcall (p : Program) : p.callNeverReturns c =
        (p.notes (.block c.target)).map Notes.neverReturns := by
      simp only [callNeverReturns, notes, except_map_map]
    rw [hcall, hcall, hnotes]

theorem parallel_withdraw {ds : List DefnId} (hds : ∀ d ∈ ds, d ∉ E ∧ ∀ e, p0.Refers d e → e ∉ E) :
    Parallel (Differ p0 E) (withdraw ds) fun _ => Differ p0 E := by
  induction ds with
  | nil => exact .pure fun _ _ h => h
  | cons d ds ih =>
    obtain ⟨⟨hd, hrefs⟩, hds⟩ := List.forall_mem_cons.mp hds
    have hrest (refuted : Bool) : Parallel (Differ p0 E) (do
        if refuted then noteNeverReturns false d
        let others ← withdraw ds
        return refuted || others) fun _ => Differ p0 E := by
      have hothers : Parallel (Differ p0 E) (do
          let others ← withdraw ds
          return refuted || others) fun _ => Differ p0 E := .bind (ih hds) fun _ =>
            .pure fun _ _ h => h
      split
      · refine .bind (parallel_noteNeverReturns false d) fun _ => ?_
        rwa [Set.sdiff_singleton_eq_self hd]
      · exact hothers
    unfold withdraw
    refine .bind (.read (S := fun _ => Differ p0 E) (fun _ _ h => h.1.toBlank)
      (fun _ _ h => h.1.notes (conceal_of_notMem hd)) fun _ _ _ h _ => h) fun notes => ?_
    dsimp only
    split
    · refine .bind (.read (S := fun _ => Differ p0 E) (fun _ _ h => h.1.toBlank)
        (fun _ _ h => h.defnNeverReturns hrefs) fun _ _ _ h _ => h) fun holds => hrest _
    · exact hrest false

theorem parallel_settle {members : List DefnId}
    (hmembers : ∀ d ∈ members, d ∉ E ∧ ∀ e, p0.Refers d e → e ∉ E) (fuel : Nat) :
    Parallel (Differ p0 E) (settle members fuel) fun _ => Differ p0 E := by
  induction fuel with
  | zero => exact .pure fun _ _ h => h
  | succ fuel ih =>
    unfold settle
    refine .bind (parallel_withdraw hmembers) fun again => ?_
    split
    · exact ih
    · exact .pure fun _ _ h => h

theorem parallel_returnAnalysisOf {cs : List Component} (horder : CalleesFirst p0 cs)
    (hE : ∀ d ∈ E, d ∈ allMembers cs) :
    Parallel (Differ p0 E) (returnAnalysisOf cs) fun _ => Eq := by
  induction cs generalizing E with
  | nil =>
    refine .pure fun p q h => h.1.eq_of_id fun d n => conceal_of_notMem (fun hd => ?_) n
    simpa [allMembers] using hE d hd
  | cons c cs ih =>
    obtain ⟨hlater, horder⟩ := List.pairwise_cons.mp horder
    have hrest (d : DefnId) (hd : d ∈ E \ {d | d ∈ c.members}) : d ∈ allMembers cs := by
      have hmem := hE d hd.1
      simp only [allMembers, List.flatMap_cons, List.mem_append] at hmem
      exact hmem.resolve_left hd.2
    refine .bind (parallel_supposeAll c.members) fun _ => .bind (parallel_settle (fun d hd => ?_) _)
      fun _ => ih horder hrest
    refine ⟨fun h => h.2 hd, fun e hde he => ?_⟩
    -- What is still to be dealt with belongs to a later component.
    obtain ⟨c', hc', he'⟩ := List.mem_flatMap.mp (hrest e he)
    exact (hlater c' hc' d hd e he').2 hde

theorem parallel_returnAnalysis {D : Set DefnId} :
    Parallel (Aligned D) returnAnalysis fun _ => Eq := by
  intro p q h
  have hcomps : p.components = q.components := h.same.congr fun _ => rfl
  have hend := parallel_returnAnalysisOf h.shaken.order h.shaken.retained p q ⟨h.same, .refl _ _⟩
  have hrun (p : Program) : returnAnalysis p = returnAnalysisOf p.components.toList p := rfl
  rw [hrun p, hrun q, ← hcomps]
  exact hend

end Edit

namespace Pass

variable {D : Set DefnId} (o : Options) (fuel : Nat)

open Program

theorem parallel_startRound {R : Program → Program → Prop} : Parallel R startRound fun _ => R :=
  MonadicIR.Parallel.modify fun _ _ h => ⟨h.program, h.current, h.log, rfl⟩

theorem parallel_mainRound (hinlining : o.inlining = true) :
    Parallel (Aligned D) (mainRound o fuel) fun _ => Eq := by
  have heq {α : Type} {x : Pass α} : Parallel Eq x fun _ => Eq :=
    .of_eq (fun _ _ h => h) fun _ _ => rfl
  have hinline : Parallel (Aligned D) (inlineRound o fuel) fun _ => Eq := by
    unfold inlineRound
    rw [if_pos hinlining]
    exact .bind (.bind (.edit parallel_returnAnalysis) fun _ => heq) fun _ => heq
  exact .bind parallel_startRound fun _ => .bind hinline fun _ => heq

theorem parallel_optimise (hD : o.inlining = true ∨ D = ∅) :
    Parallel (Start D) (optimise o fuel) fun _ => SameUpTo blank := by
  have heq {α : Type} {x : Pass α} : Parallel Eq x fun _ => SameUpTo blank :=
    .of_eq (fun _ _ h => h) fun _ _ => .refl _ _
  refine .bind (.look (S := fun _ => Start D) (fun _ _ h => h.same.toBlank)
    (fun p q h => h.same.congr fun p => p.check_mapNotes _) fun _ _ _ h _ => h) fun _ => ?_
  refine .bind parallel_shake fun _ => ?_
  obtain hinlining | rfl := hD
  · have hrest (size : Nat) : Parallel (Aligned D) (do
        let passes ← mainLoop o fuel (o.maxPasses + 1) 0
        let passes ← mergeLoop o fuel (o.maxPasses + 1) passes
        workOn none
        look check
        let s ← get
        return ({ passes, changes := s.log.size, sizeBefore := size, sizeAfter := s.program.size } :
          Stats))
        fun _ => SameUpTo blank := by
      refine .bind (S := fun _ => Eq) ?_ fun _ => heq
      unfold mainLoop
      exact .bind (parallel_mainRound o fuel hinlining) fun _ => .of_eq (fun _ _ h => h) fun _ _ =>
        rfl
    exact .bind parallel_simplifyCases fun _ => .get_bind (F := Program.size)
      (fun p q h => h.same.congr fun p => p.size_mapNotes _) hrest
  · refine .of_eq (fun p q h => h.same.eq_of_id fun d n => ?_) fun _ _ => .refl _ _
    exact conceal_of_notMem (Set.notMem_empty d) n

end Pass

def Program.forget (p : Program) : Program := p.mapNotes Program.blank

def Workbench.forget (s : Workbench) : Workbench := { s with program := s.program.forget }

theorem Workbench.Beside.forget {s t : Workbench} (h : Beside (SameUpTo blank) s t) :
    s.forget = t.forget := by
  have hprogram : s.program.forget = t.program.forget := h.program
  simp only [Workbench.forget, hprogram, h.current, h.log, h.count]

/-- The end of a run, but for the notes that it leaves. -/
def Pass.forgetNotes {α : Type} :
    EStateM.Result Failure Workbench α → EStateM.Result Failure Workbench α
  | .ok a s => .ok a s.forget
  | .error e s => .error e s.forget

namespace Program

variable {p q : Program}

theorem defines_of_notes {d : DefnId} {n : Notes} (h : p.notes d = .ok n) : p.defines d = true := by
  cases d <;> obtain ⟨x, hx, -⟩ := map_eq_ok_iff.mp h
  · exact defines_block_iff.mpr ⟨x, block_eq_ok_iff.mp hx⟩
  · exact defines_closure_iff.mpr ⟨x, closure_eq_ok_iff.mp hx⟩
  · exact defines_top_iff.mpr ⟨x, top_eq_ok_iff.mp hx⟩

/-- Programs that differ in their notes only are the same up to any view that shows the same of
these notes. -/
theorem sameUpTo_of_forget {f : View} (hsame : p.forget = q.forget)
    (h : ∀ d n m, p.notes d = .ok n → q.notes d = .ok m → f d n = f d m) : SameUpTo f p q := by
  let own : View := fun d _ => (q.notes d).toOption.getD {}
  have hq : q = p.mapNotes own := by
    calc q = q.mapNotes fun _ n => n := q.mapNotes_id.symm
      _ = q.mapNotes own := mapNotes_congr fun d n hn => by simp [own, hn, Except.toOption]
      _ = q.forget.mapNotes own := (q.mapNotes_mapNotes blank own).symm
      _ = p.forget.mapNotes own := by rw [hsame]
      _ = p.mapNotes own := p.mapNotes_mapNotes blank own
  have hview : p.mapNotes f = (p.mapNotes own).mapNotes f := by
    rw [mapNotes_mapNotes]
    refine mapNotes_congr fun d n hn => ?_
    cases hm : q.notes d with
    | ok m => simpa [own, hm, Except.toOption] using h d n m hn hm
    | error e =>
      have hnotes := congrArg (notes · d) hsame
      simp [forget, notes_mapNotes, hn, hm, Except.map] at hnotes
  unfold SameUpTo
  rw [hview, ← hq]

/-- Notes that were made before have no influence on a run, unless they are about definitions that
never return and inlining, which would find that out anew, is off or does not see the definition. -/
theorem forgetNotes_optimise (hsame : p.forget = q.forget) (o : Options) (fuel : Nat)
    (hflags : ∀ d n m, p.notes d = .ok n → q.notes d = .ok m →
      (o.inlining = true → ¬p.ReachedFrom p.roots d) → n.neverReturns = m.neverReturns) :
    Pass.forgetNotes (p.optimise o fuel) = Pass.forgetNotes (q.optimise o fuel) := by
  let D : Set DefnId := {d | o.inlining = true ∧ p.ReachedFrom p.roots d}
  have hD : o.inlining = true ∨ D = ∅ := by
    cases hinlining : o.inlining with
    | true => exact .inl rfl
    | false => exact .inr (by simp [D, hinlining])
  have hstart : Start D p q := by
    refine ⟨sameUpTo_of_forget hsame fun d n m hn hm => ?_, fun d hd => hd.2⟩
    by_cases hd : d ∈ D
    · simp only [flags, conceal_of_mem hd]
    · have hflag := hflags d n m hn hm fun hinlining hreached => hd ⟨hinlining, hreached⟩
      simp only [flags, conceal_of_notMem hd, hflag]
  have hend := Pass.parallel_optimise o fuel hD { program := p } { program := q } ⟨hstart, rfl, rfl,
    rfl⟩
  unfold Program.optimise
  generalize Pass.optimise o fuel { program := p } = r at hend
  generalize Pass.optimise o fuel { program := q } = r' at hend
  cases hend with
  | @ok a s t h => exact congrArg (EStateM.Result.ok a) h.forget
  | @error e s t h => exact congrArg (EStateM.Result.error e) h.forget

/-- A block that adds one to what another block returns, of which it may be noted that it never
does. -/
def hearsay (flag : Bool) : Program where
  temps := ⟨.replicate 5 none⟩
  blocks := #[
    { params := [⟨1⟩]
      code := .bind [⟨2⟩] (.call ⟨⟨1⟩, [.temp ⟨1⟩]⟩) (.bind [⟨4⟩] (.prim .add [.temp ⟨2⟩, .word 1])
        (.done (.ret [.temp ⟨4⟩]))) },
    { params := [⟨3⟩]
      code := .done (.ret [.temp ⟨3⟩])
      notes := { neverReturns := flag } }]
  entrypoints := [.block ⟨0⟩]

theorem reachedFrom_hearsay {d : DefnId} {n : Notes} (h : (hearsay true).notes d = .ok n) :
    (hearsay true).ReachedFrom (hearsay true).roots d := by
  have hcs : ofRoots (hearsay true) (hearsay true).roots =
      .ok [⟨[.block ⟨1⟩], false, []⟩, ⟨[.block ⟨0⟩], false, [0]⟩] := by cbv
  have hall : ∀ d ∈ (hearsay true).allDefns, d ∈ allMembers
      [⟨[.block ⟨1⟩], false, []⟩, ⟨[.block ⟨0⟩], false, [0]⟩] := by decide
  exact ((decomposition_ofRoots hcs).members d).mp (hall d (mem_allDefns.mpr (defines_of_notes h)))

theorem forgetNotes_optimise_hearsay :
    Pass.forgetNotes ((hearsay true).optimise {} 9) = Pass.forgetNotes
      ((hearsay false).optimise {} 9) ∧ ∃ stats s, (hearsay true).optimise {} 9 = .ok stats s := by
  refine ⟨forgetNotes_optimise (by decide) {} 9 fun d n m hn _ hfar => ?_, ?_⟩
  · exact absurd (reachedFrom_hearsay hn) (hfar rfl)
  · obtain ⟨stats, s, hrun, -⟩ := exists_ok (r := (hearsay true).optimise {} 9)
      (fun _ _ => true) (by cbv)
    exact ⟨stats, s, hrun⟩

/-- Without inlining, what is noted of the second block is believed, and the addition is dropped. -/
theorem forgetNotes_optimise_ne_hearsay :
    (hearsay true).check = .ok () ∧ (hearsay true).forget = (hearsay false).forget ∧
      Pass.forgetNotes ((hearsay true).optimise { inlining := false, maxPasses := 1 } 9) ≠
        Pass.forgetNotes ((hearsay false).optimise { inlining := false, maxPasses := 1 } 9) := by
  obtain ⟨stats, s, hrun, hsize⟩ := exists_ok
    (r := (hearsay true).optimise { inlining := false, maxPasses := 1 } 9)
    (fun stats _ => stats.sizeAfter == 2) (by cbv)
  obtain ⟨stats', s', hrun', hsize'⟩ := exists_ok
    (r := (hearsay false).optimise { inlining := false, maxPasses := 1 } 9)
    (fun stats _ => stats.sizeAfter == 3) (by cbv)
  refine ⟨by decide +kernel, by decide, fun h => ?_⟩
  rw [hrun, hrun'] at h
  obtain ⟨rfl, -⟩ := EStateM.Result.ok.inj h
  rw [beq_iff_eq] at hsize hsize'
  omega

end Program

end MonadicIR
