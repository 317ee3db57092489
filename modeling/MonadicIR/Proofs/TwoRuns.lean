import MonadicIR.Proofs.Checked
import MonadicIR.Proofs.PipelineRealms

namespace MonadicIR

open Component Pass

section Parallel

variable {ε σ α β : Type} {B R R' : σ → σ → Prop} {S : α → σ → σ → Prop} {T : β → σ → σ → Prop}

/-- Both runs give the same result, in related states, or fail for the same reason. -/
inductive SameEnd (B : σ → σ → Prop) (S : α → σ → σ → Prop) :
    EStateM.Result ε σ α → EStateM.Result ε σ α → Prop
  | ok {a : α} {s t : σ} (h : S a s t) : SameEnd B S (.ok a s) (.ok a t)
  | error {e : ε} {s t : σ} (h : B s t) : SameEnd B S (.error e s) (.error e t)

/-- From related states the action runs to the same end. -/
def Parallel (B R : σ → σ → Prop) (x : EStateM ε σ α) (S : α → σ → σ → Prop) : Prop :=
  ∀ s t, R s t → SameEnd B S (x s) (x t)

namespace Parallel

protected theorem pure {a : α} (h : ∀ s t, R s t → S a s t) :
    Parallel B R (pure a : EStateM ε σ α) S := fun s t hst => .ok (h s t hst)

protected theorem bind {x : EStateM ε σ α} {f : α → EStateM ε σ β} (hx : Parallel B R x S)
    (hf : ∀ a, Parallel B (S a) (f a) T) : Parallel B R (x >>= f) T := by
  intro s t hst
  have h := hx s t hst
  simp only [bind, EStateM.bind]
  generalize x s = r at h
  generalize x t = r' at h
  cases h with
  | ok h => exact hf _ _ _ h
  | error h => exact .error h

theorem throw {e : ε} (h : ∀ s t, R s t → B s t) : Parallel B R (throw e : EStateM ε σ α) S :=
  fun s t hst => .error (h s t hst)

theorem modify {f : σ → σ} {S : PUnit → σ → σ → Prop} (h : ∀ s t, R s t → S () (f s) (f t)) :
    Parallel B R (modify f : EStateM ε σ PUnit) S := fun s t hst => .ok (h s t hst)

theorem get_bind {f : σ → EStateM ε σ α} (h : ∀ s t, R s t → SameEnd B S (f s s) (f t t)) :
    Parallel B R (get >>= f) S := h

theorem of_eq {x : EStateM ε σ α} (hB : ∀ s, B s s) (hS : ∀ a s, S a s s)
    (hR : ∀ s t, R s t → s = t) : Parallel B R x S := by
  intro s t hst
  obtain rfl := hR s t hst
  cases x s with
  | ok a s' => exact .ok (hS a s')
  | error e s' => exact .error (hB s')

end Parallel

end Parallel

namespace Program

abbrev View := DefnId → Notes → Notes

variable {p q : Program} {f g : View} {d : DefnId}

section MapNotes

theorem block_mapNotes (p : Program) (f : View) (b : BlockId) : (p.mapNotes f).block b =
    (p.block b).map fun x => { x with notes := f (.block b) x.notes } := by
  simp only [block, mapNotes, Array.getElem?_mapIdx]
  cases p.blocks[b.index]? <;> rfl

theorem closure_mapNotes (p : Program) (f : View) (k : ClosureId) : (p.mapNotes f).closure k =
    (p.closure k).map fun x => { x with notes := f (.closure k) x.notes } := by
  simp only [closure, mapNotes, Array.getElem?_mapIdx]
  cases p.closures[k.index]? <;> rfl

theorem top_mapNotes (p : Program) (f : View) (t : TopId) : (p.mapNotes f).top t =
    (p.top t).map fun x => { x with notes := f (.top t) x.notes } := by
  simp only [top, mapNotes, Array.getElem?_mapIdx]
  cases p.tops[t.index]? <;> rfl

theorem notes_mapNotes (p : Program) (f : View) (d : DefnId) :
    (p.mapNotes f).notes d = (p.notes d).map (f d) := by
  cases d with
  | block b =>
    simp only [notes, block_mapNotes]
    cases p.block b <;> rfl
  | closure k =>
    simp only [notes, closure_mapNotes]
    cases p.closure k <;> rfl
  | top t =>
    simp only [notes, top_mapNotes]
    cases p.top t <;> rfl

theorem mapNotes_mapNotes (p : Program) (f g : View) :
    (p.mapNotes f).mapNotes g = p.mapNotes fun d n => g d (f d n) := by
  simp [mapNotes, Array.mapIdx_mapIdx, Function.comp_def]

theorem mapNotes_congr (h : ∀ d n, p.notes d = .ok n → f d n = g d n) :
    p.mapNotes f = p.mapNotes g := by
  have hblocks (i : Nat) (hi : i < p.blocks.size) :=
    h (.block ⟨i⟩) p.blocks[i].notes (by simp [notes, block, hi, Except.map])
  have hclosures (i : Nat) (hi : i < p.closures.size) :=
    h (.closure ⟨i⟩) p.closures[i].notes (by simp [notes, closure, hi, Except.map])
  have htops (i : Nat) (hi : i < p.tops.size) :=
    h (.top ⟨i⟩) p.tops[i].notes (by simp [notes, top, hi, Except.map])
  simp only [mapNotes, mk.injEq, true_and, and_true]
  refine ⟨?_, ?_, ?_⟩
  · exact Array.ext (by simp) fun i hi _ => by simp [hblocks i (by simpa using hi)]
  · exact Array.ext (by simp) fun i hi _ => by simp [hclosures i (by simpa using hi)]
  · exact Array.ext (by simp) fun i hi _ => by simp [htops i (by simpa using hi)]

theorem mapIdx_eq_self {α : Type} {xs : Array α} {f : Nat → α → α} (h : ∀ i x, f i x = x) :
    xs.mapIdx f = xs :=
  Array.ext (by simp) fun i _ _ => by simp [h]

theorem mapNotes_id (p : Program) : (p.mapNotes fun _ n => n) = p := by
  simp only [mapNotes, mapIdx_eq_self fun _ _ => rfl]

/-- To change the notes of one definition is to leave all other notes as they are. -/
theorem modifyNotes_eq_mapNotes (p : Program) (d : DefnId) (f : Notes → Notes) :
    p.modifyNotes d f = p.mapNotes fun e n => if e = d then f n else n := by
  have hmodify {α : Type} (xs : Array α) (i : Nat) (f : α → α) (g : Nat → α → α)
      (hi : ∀ x, g i x = f x) (hne : ∀ j ≠ i, ∀ x, g j x = x) : xs.modify i f = xs.mapIdx g := by
    refine Array.ext (by simp) fun j _ _ => ?_
    rw [Array.getElem_modify, Array.getElem_mapIdx]
    split
    · subst ‹i = j›
      exact (hi _).symm
    · exact (hne j (Ne.symm ‹_›) _).symm
  have hself {α : Type} (xs : Array α) (g : Nat → α → α) (h : ∀ i x, g i x = x) :
    xs = xs.mapIdx g :=
    (mapIdx_eq_self h).symm
  simp only [mapNotes]
  cases d with
  | block b =>
    simp only [modifyNotes, mk.injEq, true_and, and_true]
    refine ⟨hmodify _ _ _ _ (fun x => by simp) fun j hj x => ?_, hself _ _ (by simp),
      hself _ _ (by simp)⟩
    rw [if_neg (by rintro ⟨⟩; exact hj rfl)]
  | closure k =>
    simp only [modifyNotes, mk.injEq, true_and, and_true]
    refine ⟨hself _ _ (by simp), hmodify _ _ _ _ (fun x => by simp) fun j hj x => ?_,
      hself _ _ (by simp)⟩
    rw [if_neg (by rintro ⟨⟩; exact hj rfl)]
  | top t =>
    simp only [modifyNotes, mk.injEq, true_and, and_true]
    refine ⟨hself _ _ (by simp), hself _ _ (by simp), hmodify _ _ _ _ (fun x => by simp)
      fun j hj x => ?_⟩
    rw [if_neg (by rintro ⟨⟩; exact hj rfl)]

end MapNotes

def topLevel? (p : Program) : DefnId → Option TopLevel
  | .top t => p.tops[t.index]?
  | _ => none

section Readers

theorem except_map_bind {ε α β γ : Type} (x : Except ε α) (f : α → β) (g : β → Except ε γ) :
    (x.map f >>= g) = x >>= fun a => g (f a) := by
  cases x <;> rfl

theorem except_map_map {ε α β γ : Type} (x : Except ε α) (f : α → β) (g : β → γ) :
    (x.map f).map g = x.map fun a => g (f a) := by
  cases x <;> rfl

variable (p : Program) (f : View)

theorem callees_mapNotes : (p.mapNotes f).callees = p.callees := (p.sameBodies_mapNotes f).callees

theorem allDefns_mapNotes : (p.mapNotes f).allDefns = p.allDefns :=
    (p.sameBodies_mapNotes f).allDefns

theorem roots_mapNotes : (p.mapNotes f).roots = p.roots := (p.sameBodies_mapNotes f).roots rfl

theorem defns_mapNotes : (p.mapNotes f).defns = p.defns := by
  simp only [defns, allDefns_mapNotes]
  rfl

theorem refers_mapNotes : (p.mapNotes f).Refers = p.Refers := (p.sameBodies_mapNotes f).refers

theorem ofRoots_mapNotes (roots : List DefnId) :
    ofRoots (p.mapNotes f) roots = ofRoots p roots :=
  ofRoots_congr (p.callees_mapNotes f) (p.allDefns_mapNotes f) roots

theorem illegalNames?_mapNotes : illegalNames? (p.mapNotes f) = illegalNames? p := by
  funext c
  -- Of the top-levels only the names and the tails are looked at.
  let seen (top : TopLevel) : List String × Tail := (top.names, top.tail)
  have hseen : (c.members.filterMap (p.mapNotes f).topLevel?).map seen =
      (c.members.filterMap p.topLevel?).map seen := by
    rw [List.map_filterMap, List.map_filterMap]
    refine List.filterMap_congr fun d _ => ?_
    cases d with
    | top t => simp [topLevel?, seen, mapNotes, TopLevel.names, Function.comp_def]
    | block _ | closure _ => rfl
  have hillegal (p : Program) : illegalNames? p c =
      let tops := (c.members.filterMap p.topLevel?).map seen
      if c.recursive && tops.any (fun t => !t.2.isAllocator) then some (tops.flatMap Prod.fst)
      else none := by
    simp only [List.any_map, List.flatMap_map]
    rfl
  rw [hillegal, hillegal, hseen]

theorem complaints_mapNotes (cs : List Component) :
    (p.mapNotes f).complaints cs = p.complaints cs := by
  simp only [complaints, roots_mapNotes, illegalNames?_mapNotes, (p.sameBodies_mapNotes f).defines]
  rfl

theorem size_mapNotes : (p.mapNotes f).size = p.size := by
  simp only [size, defns_mapNotes]
  congr 1
  refine List.map_congr_left fun d _ => ?_
  cases d with
  | block b =>
    simp only [mapNotes, Array.getElem?_mapIdx]
    cases p.blocks[b.index]? <;> rfl
  | closure _ | top _ => rfl

theorem allReferences_mapNotes (ds : List DefnId) :
    (p.mapNotes f).allReferences ds = p.allReferences ds := by
  have hown (d : DefnId) : (p.mapNotes f).references d = p.references d := by
    cases d <;> simp only [references, block_mapNotes, closure_mapNotes, top_mapNotes,
      except_map_map]
  induction ds with
  | nil => rfl
  | cons d ds ih => simp only [allReferences, hown, ih]

theorem check_mapNotes : (p.mapNotes f).check = p.check := by
  have hatom (d : DefnId) (a : Atom) : (p.mapNotes f).checkAtom d a = p.checkAtom d a := by
    cases a <;> simp only [checkAtom, top_mapNotes, except_map_bind]
  have hatoms (d : DefnId) (as : List Atom) : (p.mapNotes f).checkAtoms d as = p.checkAtoms d
    as := by
    induction as with
    | nil => rfl
    | cons a as ih => simp only [checkAtoms, hatom, ih]
  have htail (d : DefnId) (t : Tail) : (p.mapNotes f).checkTail d t = p.checkTail d t := by
    cases t <;> simp only [checkTail, hatoms, checkShape, block_mapNotes, closure_mapNotes,
      except_map_bind]
  have hcalls (d : DefnId) (cs : List Call) : (p.mapNotes f).checkCalls d cs = p.checkCalls d
    cs := by
    induction cs with
    | nil => rfl
    | cons c cs ih => simp only [checkCalls, htail, ih]
  have hcode (d : DefnId) (code : Code) (bound : List Temp) :
      (p.mapNotes f).checkCode d code bound = p.checkCode d code bound := by
    induction code generalizing bound with
    | done t => exact htail d t
    | bind vars t rest ih => simp only [checkCode, htail, ih]
    | assert a ctor rest ih => simp only [checkCode, hatom, ih]
    | branch test yes no => simp only [checkCode, hatom, hcalls]
    | switch a alts =>
      simp only [checkCode, hatom, hcalls]
      rfl
  have hdefn (d : DefnId) : (p.mapNotes f).checkDefn d = p.checkDefn d := by
    cases d <;> simp only [checkDefn, block_mapNotes, closure_mapNotes, top_mapNotes,
      except_map_bind, hcode, htail]
  have hall (ds : List DefnId) : (p.mapNotes f).checkAll ds = p.checkAll ds := by
    induction ds with
    | nil => rfl
    | cons d ds ih => simp only [checkAll, hdefn, ih]
  rw [check, check, defns_mapNotes, hall]

end Readers

/-- What the view does not show is all that the programs differ in. -/
def SameUpTo (f : View) (p q : Program) : Prop := p.mapNotes f = q.mapNotes f

def blank : View := fun _ _ => {}

def setCode (p : Program) (b : BlockId) (code : Code) : Program :=
  { p with blocks := p.blocks.modify b.index fun x => { x with code } }

namespace SameUpTo

theorem refl (f : View) (p : Program) : SameUpTo f p p := rfl

variable (h : SameUpTo f p q)

include h

theorem congr {γ : Type} {F : Program → γ} (hF : ∀ p : Program, F (p.mapNotes f) = F p) :
    F p = F q := by
  rw [← hF p, ← hF q, h]

theorem map {k : View} (hf : ∀ d n, k d (g d (f d n)) = k d (g d n)) :
    SameUpTo k (p.mapNotes g) (q.mapNotes g) := by
  have hview (p : Program) :
      (p.mapNotes g).mapNotes k = (p.mapNotes f).mapNotes fun d n => k d (g d n) := by
    simp only [mapNotes_mapNotes, hf]
  unfold SameUpTo
  rw [hview p, hview q, h]

theorem mono (hf : ∀ d n, g d (f d n) = g d n) : SameUpTo g p q := by
  simpa only [mapNotes_id] using h.map (k := g) (g := fun _ n => n) hf

theorem toBlank : SameUpTo blank p q := h.mono fun _ _ => rfl

theorem eq_of_id (hf : ∀ d n, f d n = n) : p = q := by
  have hid := h.mono (g := fun _ n => n) hf
  simpa only [SameUpTo, mapNotes_id] using hid

theorem notes (hd : ∀ n, f d n = n) : p.notes d = q.notes d := by
  have hnotes := congrArg (Program.notes · d) h
  simp only [notes_mapNotes, funext hd] at hnotes
  have hid (x : Except Fault Notes) : x.map (fun n => n) = x := by cases x <;> rfl
  rwa [hid, hid] at hnotes

theorem setCode (b : BlockId) (code : Code) :
    SameUpTo f (p.setCode b code) (q.setCode b code) := by
  have hview (p : Program) : (p.setCode b code).mapNotes f = (p.mapNotes f).setCode b code := by
    simp only [Program.setCode, mapNotes, mk.injEq, true_and, and_true]
    refine Array.ext (by simp) fun i _ _ => ?_
    simp only [Array.getElem_mapIdx, Array.getElem_modify]
    split <;> rfl
  unfold SameUpTo
  rw [hview p, hview q, h]

end SameUpTo

end Program

namespace Edit

variable {α β : Type} {R : Program → Program → Prop} {S : α → Program → Program → Prop}
  {T : β → Program → Program → Prop}

/-- From related programs the edit runs to the same end, notes apart. -/
def Parallel (R : Program → Program → Prop) (e : Edit α) (S : α → Program → Program → Prop) :
    Prop :=
  MonadicIR.Parallel (Program.SameUpTo Program.blank) R e S

protected theorem Parallel.pure {a : α} (h : ∀ p q, R p q → S a p q) : Edit.Parallel R (pure a) S :=
  MonadicIR.Parallel.pure h

protected theorem Parallel.bind {e : Edit α} {f : α → Edit β} (he : Edit.Parallel R e S)
    (hf : ∀ a, Edit.Parallel (S a) (f a) T) : Edit.Parallel R (e >>= f) T :=
  MonadicIR.Parallel.bind he hf

theorem Parallel.modify {f : Program → Program} {S : PUnit → Program → Program → Prop}
    (h : ∀ p q, R p q → S () (f p) (f q)) : Edit.Parallel R (modify f) S :=
  MonadicIR.Parallel.modify h

theorem Parallel.read {f : Program → Except Fault α}
    (hR : ∀ p q, R p q → Program.SameUpTo Program.blank p q)
    (hf : ∀ p q, R p q → f p = f q) (hS : ∀ a p q, R p q → f p = .ok a → S a p q) :
    Edit.Parallel R (Edit.read f) S := by
  intro p q hpq
  simp only [Edit.read, ← hf p q hpq]
  cases hp : f p with
  | ok a => exact .ok (hS a p q hpq hp)
  | error e => exact .error (hR p q hpq)

end Edit

namespace Workbench

/-- The programs are related, and all else is the same. -/
structure Beside (R : Program → Program → Prop) (s t : Workbench) : Prop where
  program : R s.program t.program
  current : s.current = t.current
  log : s.log = t.log
  count : s.count = t.count

end Workbench

namespace Pass

variable {α β : Type} {R : Program → Program → Prop} {S : α → Program → Program → Prop}
  {T : β → Program → Program → Prop}

/-- From related programs the pass runs to the same end, notes apart. -/
def Parallel (R : Program → Program → Prop) (x : Pass α) (S : α → Program → Program → Prop) :
    Prop :=
  MonadicIR.Parallel (Workbench.Beside (Program.SameUpTo Program.blank)) (Workbench.Beside R) x
    fun a => Workbench.Beside (S a)

protected theorem Parallel.pure {a : α} (h : ∀ p q, R p q → S a p q) : Parallel R (pure a) S :=
  MonadicIR.Parallel.pure fun _ _ hst => ⟨h _ _ hst.program, hst.current, hst.log, hst.count⟩

protected theorem Parallel.bind {x : Pass α} {f : α → Pass β} (hx : Parallel R x S)
    (hf : ∀ a, Parallel (S a) (f a) T) : Parallel R (x >>= f) T :=
  MonadicIR.Parallel.bind hx hf

theorem Parallel.of_eq {x : Pass α} (hR : ∀ p q, R p q → p = q) (hS : ∀ a p, S a p p) :
    Parallel R x S := by
  refine MonadicIR.Parallel.of_eq (fun _ => ⟨.refl _ _, rfl, rfl, rfl⟩)
    (fun a s => ⟨hS a s.program, rfl, rfl, rfl⟩) ?_
  rintro ⟨p, _, _, _⟩ ⟨q, _, _, _⟩ ⟨hpq, rfl, rfl, rfl⟩
  obtain rfl := hR p q hpq
  rfl

theorem Parallel.edit {e : Edit α} (h : Edit.Parallel R e S) : Parallel R (Pass.edit e) S := by
  rintro ⟨p, current, log, count⟩ ⟨q, _, _, _⟩ ⟨hpq, rfl, rfl, rfl⟩
  have hend := h p q hpq
  simp only [Pass.edit]
  generalize e p = r at hend
  generalize e q = r' at hend
  cases hend with
  | ok h => exact .ok ⟨h, rfl, rfl, rfl⟩
  | error h => exact .error ⟨h, rfl, rfl, rfl⟩

theorem Parallel.look {f : Program → Except Fault α}
    (hR : ∀ p q, R p q → Program.SameUpTo Program.blank p q) (hf : ∀ p q, R p q → f p = f q)
    (hS : ∀ a p q, R p q → f p = .ok a → S a p q) : Parallel R (Pass.look f) S :=
  .edit (.read hR hf hS)

theorem Parallel.workOn (d : Option DefnId) : Parallel R (workOn d) fun _ => R :=
  MonadicIR.Parallel.modify fun _ _ hst => ⟨hst.program, rfl, hst.log, hst.count⟩

theorem Parallel.report (text : String) : Parallel R (report text) fun _ => R := by
  refine MonadicIR.Parallel.modify fun s t hst => ⟨hst.program, hst.current, ?_, ?_⟩
  · simp only [hst.log, hst.current]
  · simp only [hst.count]

theorem Parallel.announce (r : α × List String) (hS : ∀ p q, R p q → S r.1 p q) :
    Parallel R (announce r) S := by
  have hall (texts : List String) : Parallel R (reportAll texts) fun _ => R := by
    induction texts with
    | nil => exact .pure fun _ _ h => h
    | cons text texts ih => exact .bind (.report text) fun _ => ih
  exact .bind (hall r.2) fun _ => .pure hS

theorem Parallel.forEach {f : β → Pass Unit} (hf : ∀ b, Parallel R (f b) fun _ => R)
    (bs : List β) : Parallel R (forEach f bs) fun _ => R := by
  induction bs with
  | nil => exact .pure fun _ _ h => h
  | cons b bs ih => exact .bind (hf b) fun _ => ih

theorem Parallel.get_bind {γ : Type} {F : Program → γ} {f : γ → Pass α}
    (hF : ∀ p q, R p q → F p = F q) (hf : ∀ c, Parallel R (f c) S) :
    Parallel R (get >>= fun s => f (F s.program)) S := by
  refine MonadicIR.Parallel.get_bind fun s t hst => ?_
  rw [← hF _ _ hst.program]
  exact hf _ s t hst

end Pass

end MonadicIR
