import MonadicIR.FlowGraph.Build
import MonadicIR.Proofs.Passes

namespace MonadicIR

open Array List

namespace FlowGraph

variable {included : List BlockId}

def Label.sources (l : Label) : List Source := l.preds.map Pred.source

/-- What the kind of a label says of it, if these are its successors. -/
def Label.Fits (included : List BlockId) (succs : List Nat) (l : Label) : Prop :=
  match l.kind with
  | .code b => b ∈ included
  | .goto target => l.preds.length = 1 ∧ succs = [target]
  | .call c => l.preds.length = 1 ∧ succs = [] ∧ c.target ∉ included

theorem Label.fits_code {l : Label} {b : BlockId} {succs : List Nat} (h : l.kind = .code b) :
    l.Fits included succs ↔ b ∈ included := by
  simp [Fits, h]

abbrev Arcs := Source → List Nat

/-- Is there such a place in a graph of so many labels? -/
def Source.In (size : Nat) : Source → Prop
  | entry => True
  | label i => i < size

theorem Source.In.mono {s : Source} {m n : Nat} (h : s.In m) (hle : m ≤ n) : s.In n := by
  cases s with
  | entry => trivial
  | label i => exact lt_of_lt_of_le h hle

theorem Source.In.ne {s : Source} {n i : Nat} (h : s.In n) (hi : n ≤ i) : .label i ≠ s := by
  rintro rfl
  exact absurd h (Nat.not_lt.mpr hi)

namespace Arcs

variable {out : Arcs} {labels : Array Label} {s : Source}

def add (out : Arcs) (s : Source) (j : Nat) : Arcs := fun s' =>
  if s' = s then out s' ++ [j] else out s'

theorem add_self (out : Arcs) (s : Source) (j : Nat) : out.add s j s = out s ++ [j] := if_pos rfl

theorem add_of_ne (out : Arcs) {s s' : Source} (h : s' ≠ s) (j : Nat) : out.add s j s' = out s' :=
  if_neg h

theorem mem_add {s' : Source} {i j : Nat} : i ∈ out.add s j s' ↔ i ∈ out s' ∨ s' = s ∧ i = j := by
  unfold add
  split <;> simp_all

/-- The arcs are those that the predecessors name, each of them once. -/
structure Of (out : Arcs) (labels : Array Label) : Prop where
  distinct : ∀ {j : Nat} {l : Label}, labels[j]? = some l → l.sources.Nodup
  mem_iff : ∀ {s : Source} {j : Nat}, j ∈ out s ↔ ∃ l, labels[j]? = some l ∧ s ∈ l.sources
  silent : ∀ {i : Nat}, labels.size ≤ i → out (.label i) = []

theorem Of.empty : Of (fun _ => []) #[] := ⟨by simp, by simp, fun _ => rfl⟩

theorem Of.push (h : out.Of labels) (hs : s.In labels.size) {l : Label} (hl : l.sources = [s]) :
    (out.add s labels.size).Of (labels.push l) where
  distinct {j m} hm := by
    rw [getElem?_push] at hm
    split at hm
    · obtain rfl := Option.some.inj hm
      simp [hl]
    · exact h.distinct hm
  mem_iff {s' j} := by
    rw [mem_add, h.mem_iff]
    simp only [getElem?_push]
    split
    · subst j
      simp [hl]
    · simp_all
  silent {i} hi := by
    rw [size_push] at hi
    rw [add_of_ne _ (hs.ne (by omega)), h.silent (by omega)]

theorem Of.modify (h : out.Of labels) (hs : s.In labels.size) {j : Nat} {l : Label}
    (hl : labels[j]? = some l) (hnew : s ∉ l.sources) {f : Label → Label}
    (hf : (f l).sources = l.sources ++ [s]) : (out.add s j).Of (labels.modify j f) where
  distinct {k m} hm := by
    rw [Array.getElem?_modify] at hm
    split at hm
    · subst k
      rw [hl] at hm
      obtain rfl := Option.some.inj hm
      rw [hf, List.nodup_append]
      refine ⟨h.distinct hl, by simp, ?_⟩
      rintro a ha b hb rfl
      exact hnew (List.mem_singleton.mp hb ▸ ha)
    · exact h.distinct hm
  mem_iff {s' k} := by
    rw [mem_add, h.mem_iff]
    simp only [Array.getElem?_modify]
    split
    · subst k
      simp [hl, hf]
    · simp_all [eq_comm]
  silent {i} hi := by
    rw [Array.size_modify] at hi
    rw [add_of_ne _ (hs.ne hi), h.silent hi]

end Arcs

namespace Draft

variable {d d' d1 : Draft} {out out' out1 : Arcs} {s : Source} {i : Nat} {l : Label} {b : BlockId}
  {target : Nat} {is : List Nat} {l' : Label} {pred : Pred}

def HasCode (d : Draft) (b : BlockId) : Prop :=
  ∃ (i : Nat) (l : Label), d.labels[i]? = some l ∧ l.kind = .code b

/-- Edges may leave the start and the labels with code. -/
def Open (d : Draft) : Source → Prop
  | .entry => True
  | .label i => ∃ l b, d.labels[i]? = some l ∧ l.kind = .code b

/-- All labels are still there and of the same kind. -/
def KeepsKinds (d d' : Draft) : Prop :=
  ∀ ⦃i : Nat⦄ ⦃l : Label⦄, d.labels[i]? = some l → ∃ l', d'.labels[i]? = some l' ∧ l'.kind = l.kind

theorem KeepsKinds.trans (h : KeepsKinds d d1) (h' : KeepsKinds d1 d') : KeepsKinds d d' := by
  intro i l hl
  obtain ⟨l1, hl1, hkind1⟩ := h hl
  obtain ⟨l', hl', hkind'⟩ := h' hl1
  exact ⟨l', hl', hkind'.trans hkind1⟩

theorem KeepsKinds.hasCode (h : KeepsKinds d d') (hb : d.HasCode b) : d'.HasCode b := by
  obtain ⟨i, l, hl, hkind⟩ := hb
  obtain ⟨l', hl', hkind'⟩ := h hl
  exact ⟨i, l', hl', hkind'.trans hkind⟩

theorem KeepsKinds.isOpen (h : KeepsKinds d d') (hs : d.Open s) : d'.Open s := by
  cases s with
  | entry => trivial
  | label i =>
    obtain ⟨l, b, hl, hkind⟩ := hs
    obtain ⟨l', hl', hkind'⟩ := h hl
    exact ⟨l', b, hl', hkind'.trans hkind⟩

theorem KeepsKinds.size_le (h : KeepsKinds d d') : d.labels.size ≤ d'.labels.size := by
  by_contra hlt
  obtain ⟨l', hl', -⟩ := h (Array.getElem?_eq_getElem (Nat.not_le.mp hlt))
  exact absurd (Array.getElem?_eq_some_iff.mp hl').1 (Nat.lt_irrefl _)

theorem Open.inRange (h : d.Open s) : s.In d.labels.size := by
  cases s with
  | entry => trivial
  | label i =>
    obtain ⟨l, b, hl, -⟩ := h
    exact (Array.getElem?_eq_some_iff.mp hl).1

theorem labelFor?_eq_none (h : d.labelFor? b = none) : ¬ d.HasCode b := by
  rintro ⟨i, l, hl, hkind⟩
  rw [labelFor?, Array.findIdx?_eq_none_iff] at h
  have hne := h l (Array.mem_of_getElem? hl)
  simp [hkind] at hne

theorem labelFor?_eq_some (h : d.labelFor? b = some i) :
    ∃ l, d.labels[i]? = some l ∧ l.kind = .code b := by
  rw [labelFor?, Array.findIdx?_eq_some_iff_getElem] at h
  obtain ⟨hi, hkind, -⟩ := h
  exact ⟨d.labels[i], by simp [hi], by simpa using hkind⟩

theorem hasPred_iff (hl : d.labels[i]? = some l) :
    d.hasPred i s = true ↔ s ∈ l.sources := by
  simp [hasPred, hl, Label.sources]

def Unambiguous (d : Draft) : Prop :=
  ∀ ⦃i j : Nat⦄ ⦃l m : Label⦄ ⦃b : BlockId⦄, d.labels[i]? = some l → d.labels[j]? = some m →
    l.kind = .code b → m.kind = .code b → i = j

theorem Unambiguous.of_kinds (h : d.Unambiguous) (hold : ∀ {i : Nat} {l' : Label},
    d'.labels[i]? = some l' → ∃ l, d.labels[i]? = some l ∧ l'.kind = l.kind) : d'.Unambiguous := by
  intro i j l' m' b hl' hm' hli hmj
  obtain ⟨l, hl, hkind⟩ := hold hl'
  obtain ⟨m, hm, hkind'⟩ := hold hm'
  exact h hl hm (hkind ▸ hli) (hkind' ▸ hmj)

/-- The labels fit the arcs between them, and no block has two. -/
structure Wired (included : List BlockId) (out : Arcs) (d : Draft) : Prop where
  arcs : out.Of d.labels
  fits : ∀ {i : Nat} {l : Label}, d.labels[i]? = some l → l.Fits included (out (.label i))
  unique : d.Unambiguous

theorem Wired.empty (included : List BlockId) (next : Nat) :
    Wired included (fun _ => []) ⟨next, #[]⟩ :=
  ⟨.empty, by simp, by simp [Unambiguous]⟩

/-- Edges from one place to these labels have been added, some of which may be new. -/
structure Adds (s : Source) (is : List Nat) (d : Draft) (out : Arcs) (d' : Draft) (out' : Arcs) :
    Prop where
  kept : ∀ {i : Nat} {l : Label}, d.labels[i]? = some l →
    ∃ l', d'.labels[i]? = some l' ∧ l'.kind = l.kind ∧ l'.succs = l.succs
  fresh : ∀ {i : Nat} {l : Label}, d.labels.size ≤ i → d'.labels[i]? = some l →
    l.succs = [] ∧ ∀ b, l.kind = .code b → out' (.label i) = []
  arrived : out' s = out s ++ is
  others : ∀ {s' : Source}, s' ≠ s → s'.In d.labels.size → out' s' = out s'
  size : d'.labels.size ≤ d.labels.size + is.length

theorem Adds.kinds (h : Adds s is d out d' out') : KeepsKinds d d' := by
  intro i l hl
  obtain ⟨l', hl', hkind, -⟩ := h.kept hl
  exact ⟨l', hl', hkind⟩

theorem Adds.old (h : Adds s is d out d' out') (hi : i < d.labels.size)
    (hl' : d'.labels[i]? = some l') :
    ∃ l, d.labels[i]? = some l ∧ l'.kind = l.kind ∧ l'.succs = l.succs := by
  have hl := Array.getElem?_eq_getElem hi
  obtain ⟨_, hl'', hkind, hsuccs⟩ := h.kept hl
  obtain rfl := Option.mem_unique hl' hl''
  exact ⟨_, hl, hkind, hsuccs⟩

theorem Adds.otherLabel {i k : Nat} (h : Adds (.label i) is d out d' out') (hne : k ≠ i)
    (hk : k < d.labels.size) : out' (.label k) = out (.label k) :=
  h.others (by simpa using hne) hk

theorem Adds.nil (s : Source) (d : Draft) (out : Arcs) : Adds s [] d out d out where
  kept hl := ⟨_, hl, rfl, rfl⟩
  fresh hi hl := absurd (Array.getElem?_eq_some_iff.mp hl).1 (Nat.not_lt.mpr hi)
  arrived := by simp
  others _ _ := rfl
  size := le_rfl

theorem Adds.cons (hs : s.In d.labels.size) (h : Adds s [i] d out d1 out1)
    (h' : Adds s is d1 out1 d' out') : Adds s (i :: is) d out d' out' where
  kept hl := by
    obtain ⟨l1, hl1, hkind1, hsuccs1⟩ := h.kept hl
    obtain ⟨l', hl', hkind', hsuccs'⟩ := h'.kept hl1
    exact ⟨l', hl', hkind'.trans hkind1, hsuccs'.trans hsuccs1⟩
  fresh {j l'} hj hl' := by
    by_cases hlt : j < d1.labels.size
    · -- A label that the first edge added is an old one for the others.
      obtain ⟨l1, hl1, hkind, hsuccs⟩ := h'.old hlt hl'
      obtain ⟨hsuccs1, hout1⟩ := h.fresh hj hl1
      refine ⟨hsuccs.trans hsuccs1, fun b hb => ?_⟩
      rw [h'.others (hs.ne hj) hlt, hout1 b (hkind ▸ hb)]
    · exact h'.fresh (Nat.not_lt.mp hlt) hl'
  arrived := by rw [h'.arrived, h.arrived, List.append_assoc, List.singleton_append]
  others hne hin := by rw [h'.others hne (hin.mono h.kinds.size_le), h.others hne hin]
  size := by
    have hfirst := h.size
    have hrest := h'.size
    simp only [List.length_cons, List.length_nil] at hfirst ⊢
    omega

theorem Wired.fits_add (h : d.Wired included out) (hs : d.Open s) (j : Nat)
    (hl : d.labels[i]? = some l) : l.Fits included (out.add s j (.label i)) := by
  by_cases hi : .label i = s
  · subst s
    obtain ⟨_, b, hl', hkind⟩ := hs
    obtain rfl := Option.mem_unique hl hl'
    exact (Label.fits_code hkind).mpr ((Label.fits_code hkind).mp (h.fits hl))
  · rw [Arcs.add_of_ne _ hi]
    exact h.fits hl

theorem getElem?_addLabel {kind : LabelKind} :
    (d.addLabel kind pred).2.labels[i]? = some l ↔
      d.labels[i]? = some l ∨ i = d.labels.size ∧ { num := d.next, kind, preds := [pred] } = l := by
  simp only [addLabel, getElem?_push]
  split <;> simp_all

theorem getElem?_addPred :
    (d.addPred target pred).labels[i]? = some l' ↔ ∃ l, d.labels[i]? = some l ∧
      (if target = i then { l with preds := l.preds ++ [pred] } else l) = l' := by
  simp only [addPred, Array.getElem?_modify]
  split <;> simp_all

theorem addPred_kept (target : Nat) (pred : Pred) (hl : d.labels[i]? = some l) :
    ∃ l', (d.addPred target pred).labels[i]? = some l' ∧ l'.kind = l.kind ∧ l'.succs = l.succs :=
  ⟨_, getElem?_addPred.mpr ⟨l, hl, rfl⟩, by split <;> rfl, by split <;> rfl⟩

theorem addPred_old (hl' : (d.addPred target pred).labels[i]? = some l') :
    ∃ l, d.labels[i]? = some l ∧ l'.kind = l.kind ∧ l'.succs = l.succs := by
  obtain ⟨l, hl, rfl⟩ := getElem?_addPred.mp hl'
  exact ⟨l, hl, by split <;> rfl, by split <;> rfl⟩

theorem addPred_arcs (h : out.Of d.labels) (hs : s.In d.labels.size)
    (hl : d.labels[target]? = some l) (hnew : s ∉ l.sources) (args : List Atom) :
    (out.add s target).Of (d.addPred target ⟨s, args⟩).labels :=
  h.modify hs hl hnew (f := fun l => { l with preds := l.preds ++ [⟨s, args⟩] }) (by
    simp [Label.sources])

theorem addPred_fits (hl : d.labels[target]? = some l) (hkind : l.kind = .code b) (pred : Pred)
    (hfits : ∀ (i : Nat) (l : Label), d.labels[i]? = some l → l.Fits included (out (.label i)))
    (hl' : (d.addPred target pred).labels[i]? = some l') :
    l'.Fits included (out (.label i)) := by
  obtain ⟨m, hm, rfl⟩ := getElem?_addPred.mp hl'
  split
  · subst i
    obtain rfl := Option.mem_unique hl hm
    exact (Label.fits_code (by exact hkind)).mpr ((Label.fits_code hkind).mp (hfits _ _ hl))
  · exact hfits i m hm

theorem Unambiguous.addLabel (h : d.Unambiguous) {kind : LabelKind} (pred : Pred)
    (hnew : ∀ b, kind = .code b → ¬ d.HasCode b) : (d.addLabel kind pred).2.Unambiguous := by
  intro i j l m b hl hm hli hmj
  obtain hl | ⟨rfl, rfl⟩ := getElem?_addLabel.mp hl <;>
    obtain hm | ⟨rfl, rfl⟩ := getElem?_addLabel.mp hm
  · exact h hl hm hli hmj
  · exact absurd ⟨_, _, hl, hli⟩ (hnew b hmj)
  · exact absurd ⟨_, _, hm, hmj⟩ (hnew b hli)
  · rfl

theorem Unambiguous.addPred (h : d.Unambiguous) (target : Nat) (pred : Pred) :
    (d.addPred target pred).Unambiguous := by
  refine h.of_kinds fun hl' => ?_
  obtain ⟨l, hl, hkind, -⟩ := addPred_old hl'
  exact ⟨l, hl, hkind⟩

theorem Wired.addLabel (h : d.Wired included out) (hs : d.Open s) (kind : LabelKind)
    (args : List Atom)
    (hfits : ∀ l : Label, l.kind = kind → l.preds.length = 1 → l.Fits included [])
    (hnew : ∀ b, kind = .code b → ¬ d.HasCode b) :
    (d.addLabel kind ⟨s, args⟩).2.Wired included (out.add s d.labels.size) ∧
      Adds s [d.labels.size] d out (d.addLabel kind ⟨s, args⟩).2 (out.add s d.labels.size) := by
  have hsilent : out.add s d.labels.size (.label d.labels.size) = [] := by
    rw [Arcs.add_of_ne _ (hs.inRange.ne le_rfl), h.arcs.silent le_rfl]
  refine ⟨⟨h.arcs.push hs.inRange rfl, ?_, h.unique.addLabel _ hnew⟩, ?_, ?_, Arcs.add_self .., ?_,
    ?_⟩
  · intro i l hl
    obtain hl | ⟨rfl, rfl⟩ := getElem?_addLabel.mp hl
    · exact h.fits_add hs _ hl
    · rw [hsilent]
      exact hfits _ rfl rfl
  · exact fun hl => ⟨_, getElem?_addLabel.mpr (.inl hl), rfl, rfl⟩
  · intro i l hi hl
    obtain hl | ⟨rfl, rfl⟩ := getElem?_addLabel.mp hl
    · exact absurd (Array.getElem?_eq_some_iff.mp hl).1 (Nat.not_lt.mpr hi)
    · exact ⟨rfl, fun _ _ => hsilent⟩
  · exact fun hne _ => Arcs.add_of_ne _ hne _
  · simp [Draft.addLabel]

theorem Wired.addPred (h : d.Wired included out) (hs : d.Open s) (hl : d.labels[target]? = some l)
    (hkind : l.kind = .code b) (hnew : s ∉ l.sources) (args : List Atom) :
    (d.addPred target ⟨s, args⟩).Wired included (out.add s target) ∧
      Adds s [target] d out (d.addPred target ⟨s, args⟩) (out.add s target) := by
  refine ⟨⟨addPred_arcs h.arcs hs.inRange hl hnew args, ?_, h.unique.addPred _ _⟩, ?_, ?_,
    Arcs.add_self .., ?_, ?_⟩
  · exact fun hl' => addPred_fits hl hkind _ (fun _ _ => h.fits_add hs _) hl'
  · exact fun hl => addPred_kept _ _ hl
  · intro i l hi hl'
    obtain ⟨l, hl, -⟩ := addPred_old hl'
    exact absurd (Array.getElem?_eq_some_iff.mp hl).1 (Nat.not_lt.mpr hi)
  · exact fun hne _ => Arcs.add_of_ne _ hne _
  · simp [Draft.addPred]

/-- A second edge to a label goes through a goto, which has an edge of its own from the start. -/
theorem Wired.addGoto (h : d.Wired included out) (hs : d.Open s) (hl : d.labels[target]? = some l)
    (hkind : l.kind = .code b) (args : List Atom) :
    ((d.addLabel (.goto target) ⟨s, args⟩).2.addPred target ⟨.label d.labels.size, args⟩).Wired
      included ((out.add s d.labels.size).add (.label d.labels.size) target) ∧
      Adds s [d.labels.size] d out
        ((d.addLabel (.goto target) ⟨s, args⟩).2.addPred target ⟨.label d.labels.size, args⟩)
        ((out.add s d.labels.size).add (.label d.labels.size) target) := by
  have hne : .label d.labels.size ≠ s := hs.inRange.ne le_rfl
  have hgoto : (out.add s d.labels.size).add (.label d.labels.size) target (.label d.labels.size) =
      [target] := by
    rw [Arcs.add_self, Arcs.add_of_ne _ hne, h.arcs.silent le_rfl, List.nil_append]
  have hold {i : Nat} (hi : i < d.labels.size) :
      (out.add s d.labels.size).add (.label d.labels.size) target (.label i) =
        out.add s d.labels.size (.label i) :=
    Arcs.add_of_ne _ (by simpa using Nat.ne_of_lt hi) _
  have hl1 : (d.addLabel (.goto target) ⟨s, args⟩).2.labels[target]? = some l :=
    getElem?_addLabel.mpr (.inl hl)
  have harcs : ((out.add s d.labels.size).add (.label d.labels.size) target).Of
      ((d.addLabel (.goto target) ⟨s, args⟩).2.addPred target ⟨.label d.labels.size,
        args⟩).labels := by
    refine addPred_arcs (h.arcs.push hs.inRange rfl) ?_ hl1 ?_ args
    · simp [Source.In, Draft.addLabel]
    · intro hmem
      have hout := h.arcs.mem_iff.mpr ⟨l, hl, hmem⟩
      rw [h.arcs.silent le_rfl] at hout
      exact List.not_mem_nil hout
  refine ⟨⟨harcs, ?_, (h.unique.addLabel _ (by rintro _ ⟨⟩)).addPred _ _⟩, ?_, ?_, ?_, ?_, ?_⟩
  · refine fun hl' => addPred_fits hl1 hkind _ (fun i m hm => ?_) hl'
    obtain hm | ⟨rfl, rfl⟩ := getElem?_addLabel.mp hm
    · rw [hold (Array.getElem?_eq_some_iff.mp hm).1]
      exact h.fits_add hs _ hm
    · exact ⟨rfl, hgoto⟩
  · exact fun hl => addPred_kept _ _ (getElem?_addLabel.mpr (.inl hl))
  · intro i l' hi hl'
    obtain ⟨l, hl, hkind, hsuccs⟩ := addPred_old hl'
    obtain hl | ⟨rfl, rfl⟩ := getElem?_addLabel.mp hl
    · exact absurd (Array.getElem?_eq_some_iff.mp hl).1 (Nat.not_lt.mpr hi)
    · refine ⟨hsuccs, fun b hb => ?_⟩
      rw [hkind] at hb
      cases hb
  · rw [Arcs.add_of_ne _ hne.symm, Arcs.add_self]
  · intro s' hs' hin
    rw [Arcs.add_of_ne _ (hin.ne le_rfl).symm, Arcs.add_of_ne _ hs']
  · simp [Draft.addLabel, Draft.addPred]

theorem Wired.edge (h : d.Wired included out) (hs : d.Open s) (c : Call) :
    ∃ out', (d.edge included s c).2.Wired included out' ∧
      Adds s [(d.edge included s c).1] d out (d.edge included s c).2 out' ∧
      (c.target ∈ included → (d.edge included s c).2.HasCode c.target) := by
  by_cases hc : c.target ∈ included
  · have hcontains : included.contains c.target = true := contains_iff_mem.mpr hc
    cases hfor : d.labelFor? c.target with
    | none =>
      have hedge : d.edge included s c = d.addLabel (.code c.target) ⟨s, c.args⟩ := by
        rw [Draft.edge, if_pos hcontains, hfor]
      have hadd := h.addLabel hs (.code c.target) c.args
        (fun l hl _ => (Label.fits_code hl).mpr hc) (by
          rintro _ ⟨⟩
          exact labelFor?_eq_none hfor)
      rw [hedge]
      exact ⟨_, hadd.1, hadd.2, fun _ => ⟨_, _, getElem?_addLabel.mpr (.inr ⟨rfl, rfl⟩), rfl⟩⟩
    | some target =>
      obtain ⟨l, hl, hkind⟩ := labelFor?_eq_some hfor
      by_cases hpred : d.hasPred target s = true
      · have hedge : d.edge included s c = (d.labels.size,
            (d.addLabel (.goto target) ⟨s, c.args⟩).2.addPred target
              ⟨.label d.labels.size, c.args⟩) := by
          simp only [Draft.edge, if_pos hcontains, hfor, if_pos hpred]
          rfl
        have hadd := h.addGoto hs hl hkind c.args
        rw [hedge]
        exact ⟨_, hadd.1, hadd.2, fun _ => hadd.2.kinds.hasCode ⟨target, l, hl, hkind⟩⟩
      · have hedge : d.edge included s c = (target, d.addPred target ⟨s, c.args⟩) := by
          simp only [Draft.edge, if_pos hcontains, hfor, if_neg hpred]
        have hadd := h.addPred hs hl hkind (fun hmem => hpred ((hasPred_iff hl).mpr hmem)) c.args
        rw [hedge]
        exact ⟨_, hadd.1, hadd.2, fun _ => hadd.2.kinds.hasCode ⟨target, l, hl, hkind⟩⟩
  · have hedge : d.edge included s c = d.addLabel (.call c) ⟨s, c.args⟩ := by
      rw [Draft.edge, if_neg (by simpa using hc)]
    have hadd := h.addLabel hs (.call c) c.args
      (fun l hl hpreds => by simp [Label.Fits, hl, hpreds, hc]) (fun _ hb => by cases hb)
    rw [hedge]
    exact ⟨_, hadd.1, hadd.2, fun hmem => absurd hmem hc⟩

theorem Wired.edges (h : d.Wired included out) (hs : d.Open s) (cs : List Call) :
    ∃ out', (Draft.edges included s d cs).2.Wired included out' ∧
      Adds s (Draft.edges included s d cs).1 d out (Draft.edges included s d cs).2 out' ∧
      (Draft.edges included s d cs).1.length = cs.length ∧
      ∀ c ∈ cs, c.target ∈ included → (Draft.edges included s d cs).2.HasCode c.target := by
  induction cs generalizing d out with
  | nil => exact ⟨out, h, .nil s d out, rfl, by simp⟩
  | cons c cs ih =>
    obtain ⟨out1, h1, hadds1, hcode1⟩ := h.edge hs c
    obtain ⟨out2, h2, hadds2, hlen, hcode2⟩ := ih h1 (hadds1.kinds.isOpen hs)
    refine ⟨out2, h2, hadds1.cons hs.inRange hadds2, congrArg Nat.succ hlen, ?_⟩
    exact forall_mem_cons.mpr ⟨fun hc => hadds2.kinds.hasCode (hcode1 hc), hcode2⟩

theorem getElem?_setSuccs {succs : List Nat} {k : Nat} :
    (d.setSuccs i succs).labels[k]? = some l' ↔ ∃ l, d.labels[k]? = some l ∧
      (if i = k then { l with succs } else l) = l' := by
  simp only [setSuccs, Array.getElem?_modify]
  split <;> simp_all

theorem setSuccs_kept (i : Nat) (succs : List Nat) {k : Nat} (hl : d.labels[k]? = some l) :
    ∃ l', (d.setSuccs i succs).labels[k]? = some l' ∧ l'.kind = l.kind ∧ l'.preds = l.preds :=
  ⟨_, getElem?_setSuccs.mpr ⟨l, hl, rfl⟩, by split <;> rfl, by split <;> rfl⟩

theorem setSuccs_old {succs : List Nat} {k : Nat}
    (hl' : (d.setSuccs i succs).labels[k]? = some l') :
    ∃ l, d.labels[k]? = some l ∧ l'.kind = l.kind ∧ l'.preds = l.preds := by
  obtain ⟨l, hl, rfl⟩ := getElem?_setSuccs.mp hl'
  exact ⟨l, hl, by split <;> rfl, by split <;> rfl⟩

theorem setSuccs_self (hl : d.labels[i]? = some l) : d.setSuccs i l.succs = d := by
  obtain ⟨hlt, rfl⟩ := Array.getElem?_eq_some_iff.mp hl
  have hlabels : d.labels.modify i (fun m => { m with succs := d.labels[i].succs }) = d.labels := by
    refine Array.ext (by simp) fun k _ _ => ?_
    rw [Array.getElem_modify]
    split
    · subst k
      rfl
    · rfl
  rw [setSuccs, hlabels]

theorem setSuccs_kinds (d : Draft) (i : Nat) (succs : List Nat) :
    KeepsKinds d (d.setSuccs i succs) := by
  intro k l hl
  obtain ⟨l', hl', hkind, -⟩ := setSuccs_kept i succs hl
  exact ⟨l', hl', hkind⟩

theorem Wired.setSuccs (h : d.Wired included out) (i : Nat) (succs : List Nat) :
    (d.setSuccs i succs).Wired included out where
  arcs := by
    refine ⟨fun {j l'} hl' => ?_, fun {s j} => ?_, fun hi => h.arcs.silent ?_⟩
    · obtain ⟨l, hl, -, hpreds⟩ := setSuccs_old hl'
      rw [Label.sources, hpreds]
      exact h.arcs.distinct hl
    · rw [h.arcs.mem_iff]
      constructor
      · rintro ⟨l, hl, hmem⟩
        obtain ⟨l', hl', -, hpreds⟩ := setSuccs_kept i succs hl
        exact ⟨l', hl', by rwa [Label.sources, hpreds]⟩
      · rintro ⟨l', hl', hmem⟩
        obtain ⟨l, hl, -, hpreds⟩ := setSuccs_old hl'
        exact ⟨l, hl, by rwa [Label.sources, hpreds] at hmem⟩
    · simpa [Draft.setSuccs] using hi
  fits hl' := by
    obtain ⟨l, hl, hkind, hpreds⟩ := setSuccs_old hl'
    have hfits := h.fits hl
    rwa [Label.Fits, ← hkind, ← hpreds] at hfits
  unique := by
    refine h.unique.of_kinds fun hl' => ?_
    obtain ⟨l, hl, hkind, -⟩ := setSuccs_old hl'
    exact ⟨l, hl, hkind⟩

/-- The labels before this one have got their successors, and these have labels. -/
structure Explored (p : Program) (included : List BlockId) (i : Nat) (out : Arcs) (d : Draft) : Prop
    extends d.Wired included out where
  done : ∀ {k : Nat} {l : Label}, k < i → d.labels[k]? = some l → l.succs = out (.label k)
  todo : ∀ {k : Nat} {l : Label}, i ≤ k → d.labels[k]? = some l →
    l.succs = [] ∧ ∀ b, l.kind = .code b → out (.label k) = []
  closed : ∀ {k : Nat} {l : Label} {b : BlockId} {block : Block}, k < i → d.labels[k]? = some l →
    l.kind = .code b → p.block b = .ok block →
    ∀ c ∈ block.code.endCalls, c.target ∈ included → d.HasCode c.target

variable {p : Program}

theorem Explored.next {is succs : List Nat} (h : d.Explored p included i out)
    (hl : d.labels[i]? = some l) (h1 : d1.Wired included out1)
    (hadds : Adds (.label i) is d out d1 out1) (hsuccs : out1 (.label i) = succs)
    (hclosed : ∀ b block, l.kind = .code b → p.block b = .ok block →
      ∀ c ∈ block.code.endCalls, c.target ∈ included → d1.HasCode c.target) :
    (d1.setSuccs i succs).Explored p included (i + 1) out1 := by
  have hi : i < d.labels.size := (Array.getElem?_eq_some_iff.mp hl).1
  refine ⟨h1.setSuccs i succs, fun {k l2} hk hl2 => ?_, fun {k l2} hk hl2 => ?_,
    fun {k l2 b block} hk hl2 hb hblock c hc hmem => ?_⟩
  · obtain ⟨l1, hl1, rfl⟩ := getElem?_setSuccs.mp hl2
    split
    · subst k
      exact hsuccs.symm
    · obtain ⟨l0, hl0, -, hsame⟩ := hadds.old (by omega) hl1
      rw [hsame, h.done (by omega) hl0, hadds.otherLabel (by omega) (by omega)]
  · obtain ⟨l1, hl1, rfl⟩ := getElem?_setSuccs.mp hl2
    rw [if_neg (by omega)]
    by_cases hlt : k < d.labels.size
    · obtain ⟨l0, hl0, hkind, hsame⟩ := hadds.old hlt hl1
      obtain ⟨hnone, hout⟩ := h.todo (by omega) hl0
      refine ⟨hsame.trans hnone, fun b hb => ?_⟩
      rw [hadds.otherLabel (by omega) hlt, hout b (hkind ▸ hb)]
    · exact hadds.fresh (Nat.not_lt.mp hlt) hl1
  · refine (setSuccs_kinds d1 i succs).hasCode ?_
    obtain ⟨l1, hl1, hkind, -⟩ := setSuccs_old hl2
    obtain ⟨l0, hl0, hkind1, -⟩ := hadds.old (by omega) hl1
    rw [hkind, hkind1] at hb
    by_cases hki : k = i
    · subst k
      obtain rfl := Option.mem_unique hl hl0
      exact hclosed b block hb hblock c hc hmem
    · exact hadds.kinds.hasCode (h.closed (by omega) hl0 hb hblock c hc hmem)

def jumps (p : Program) (b : BlockId) : Nat :=
  (p.blocks[b.index]?).elim 0 fun block => block.code.endCalls.length

theorem jumps_eq {block : Block} (h : p.block b = .ok block) :
    jumps p b = block.code.endCalls.length := by
  simp [jumps, Program.block_eq_ok_iff.mp h]

def Looked (d : Draft) (i : Nat) (b : BlockId) : Prop :=
  ∃ (k : Nat) (l : Label), k < i ∧ d.labels[k]? = some l ∧ l.kind = .code b

theorem KeepsKinds.looked (h : KeepsKinds d d') {i j : Nat} (hij : i ≤ j) (hb : d.Looked i b) :
    d'.Looked j b := by
  obtain ⟨k, l, hk, hl, hkind⟩ := hb
  obtain ⟨l', hl', hkind'⟩ := h hl
  exact ⟨k, l', lt_of_lt_of_le hk hij, hl', hkind'.trans hkind⟩

/-- What remains the same when a label is looked at, and how many labels that adds. -/
structure Step (added : Nat) (d : Draft) (out : Arcs) (d' : Draft) (out' : Arcs) : Prop where
  kinds : KeepsKinds d d'
  entry : out' .entry = out .entry
  size : d'.labels.size ≤ d.labels.size + added

theorem Adds.step (h : Adds (.label i) is d out d' out') (succs : List Nat) :
    Step is.length d out (d'.setSuccs i succs) out' where
  kinds := h.kinds.trans (setSuccs_kinds d' i succs)
  entry := h.others (by simp) trivial
  size := by simpa [setSuccs] using h.size

def labelJumps (p : Program) (l : Label) : Nat :=
  match l.kind with
  | .code b => jumps p b
  | _ => 0

theorem findSuccs_step {fuel i : Nat} (h : d.Explored p included i out) (hl : d.labels[i]? = some l)
    (hrun : d.findSuccs p included (fuel + 1) i = .ok d') :
    ∃ d2 out2, d2.Explored p included (i + 1) out2 ∧ Step (labelJumps p l) d out d2 out2 ∧
      d2.findSuccs p included fuel (i + 1) = .ok d' := by
  rw [findSuccs] at hrun
  simp only [hl] at hrun
  have hfits := h.fits hl
  cases hkind : l.kind with
  | code b =>
    simp only [hkind, bind_eq_ok_iff] at hrun
    obtain ⟨block, hblock, hrun⟩ := hrun
    obtain ⟨out2, h2, hadds, hlen, hcode⟩ :=
      h.toWired.edges (s := .label i) ⟨l, b, hl, hkind⟩ block.code.endCalls
    have hnone : out (.label i) = [] := (h.todo (Nat.le_refl i) hl).2 b hkind
    have hsuccs := hadds.arrived
    rw [hnone, nil_append] at hsuccs
    refine ⟨_, out2, h.next hl h2 hadds hsuccs fun b' block' hb' hblock' => ?_, ?_, hrun⟩
    · obtain rfl : b = b' := by simpa [hkind] using hb'
      obtain rfl := Except.ok.inj (hblock.symm.trans hblock')
      exact hcode
    · have hstep := hadds.step (Draft.edges included (.label i) d block.code.endCalls).1
      rwa [hlen, ← jumps_eq hblock, show jumps p b = labelJumps p l by simp [labelJumps,
        hkind]] at hstep
  | goto target =>
    simp only [hkind] at hrun
    simp only [Label.Fits, hkind] at hfits
    refine ⟨_, out, h.next hl h.toWired (.nil _ d out) hfits.2 (by simp [hkind]), ?_, hrun⟩
    simpa [labelJumps, hkind] using (Adds.nil (.label i) d out).step [target]
  | call c =>
    simp only [hkind] at hrun
    simp only [Label.Fits, hkind] at hfits
    have hsame := setSuccs_self hl
    rw [(h.todo (Nat.le_refl i) hl).1] at hsame
    have hnext := h.next hl h.toWired (.nil _ d out) hfits.2.1 (by simp [hkind])
    have hstep := (Adds.nil (.label i) d out).step []
    rw [hsame] at hnext hstep
    exact ⟨d, out, hnext, by simpa [labelJumps, hkind] using hstep, hrun⟩

/-- All labels are looked at. The fuel is enough, because no block is looked at twice, and one that
is looked at adds no more labels than it has jumps. -/
theorem findSuccs_explored {fuel i : Nat} (rest : List BlockId) (h : d.Explored p included i out)
    (hrest : ∀ b ∈ included, b ∈ rest ∨ d.Looked i b)
    (hfuel : d.labels.size + (rest.map (jumps p)).sum < fuel + i)
    (hrun : d.findSuccs p included fuel i = .ok d') :
    ∃ out' n, d'.Explored p included n out' ∧ d'.labels.size ≤ n ∧ out' .entry = out .entry ∧
      ∀ b, d.HasCode b → d'.HasCode b := by
  induction fuel generalizing d i out rest with
  | zero =>
    obtain rfl := Except.ok.inj hrun
    exact ⟨out, i, h, by omega, rfl, fun _ => id⟩
  | succ fuel ih =>
    cases hl : d.labels[i]? with
    | none =>
      simp only [findSuccs, hl] at hrun
      obtain rfl := Except.ok.inj hrun
      exact ⟨out, i, h, Array.getElem?_eq_none_iff.mp hl, rfl, fun _ => id⟩
    | some l =>
      obtain ⟨d2, out2, h2, hstep, hrun⟩ := findSuccs_step h hl hrun
      have hlooked {b : BlockId} : d.Looked i b → d2.Looked (i + 1) b :=
        hstep.kinds.looked (Nat.le_succ i)
      -- The block of this label is crossed off the list of those that are left.
      obtain ⟨rest2, hrest2, hfuel2⟩ : ∃ rest2 : List BlockId,
          (∀ b ∈ included, b ∈ rest2 ∨ d2.Looked (i + 1) b) ∧
            d2.labels.size + (rest2.map (jumps p)).sum < fuel + (i + 1) := by
        have hsize := hstep.size
        cases hkind : l.kind with
        | code b =>
          simp only [labelJumps, hkind] at hsize
          have hb : b ∈ rest := by
            have hfits := (Label.fits_code hkind).mp (h.fits hl)
            refine (hrest b hfits).resolve_right ?_
            rintro ⟨k, m, hk, hm, hkind'⟩
            exact absurd (h.unique hm hl hkind' hkind) (by omega)
          have hsum := List.sum_map_erase (jumps p) hb
          refine ⟨rest.erase b, fun b' hb' => ?_, by omega⟩
          by_cases hne : b' = b
          · subst b'
            obtain ⟨l2, hl2, hkind2⟩ := hstep.kinds hl
            exact .inr ⟨i, l2, by omega, hl2, hkind2.trans hkind⟩
          · exact (hrest b' hb').imp (List.mem_erase_of_ne hne).mpr hlooked
        | goto _ | call _ =>
          simp only [labelJumps, hkind] at hsize
          exact ⟨rest, fun b' hb' => (hrest b' hb').imp_right hlooked, by omega⟩
      obtain ⟨out', n, h', hn, hentry, hcode'⟩ := ih rest2 h2 hrest2 hfuel2 hrun
      exact ⟨out', n, h', hn, hentry.trans hstep.entry, fun b hb =>
        hcode' b (hstep.kinds.hasCode hb)⟩

end Draft

section Included

variable {p : Program} {small : Nat} {starts included included' : List BlockId} {b : BlockId}

/-- The blocks that jumps between included blocks lead to from some of them. -/
inductive JumpsTo (p : Program) (starts included : List BlockId) : BlockId → Prop
  | start {b : BlockId} : b ∈ starts → b ∈ included → JumpsTo p starts included b
  | next {b : BlockId} {block : Block} {c : Call} : JumpsTo p starts included b →
      p.block b = .ok block → c ∈ block.code.endCalls → c.target ∈ included →
      JumpsTo p starts included c.target

theorem JumpsTo.mono (h : JumpsTo p starts included b) (hsub : included ⊆ included') :
    JumpsTo p starts included' b := by
  induction h with
  | start hstart hmem => exact .start hstart (hsub hmem)
  | next _ hblock hc hmem ih => exact .next ih hblock hc (hsub hmem)

/-- Each block is included once, and for a reason. -/
structure Joined (p : Program) (starts included : List BlockId) : Prop where
  nodup : included.Nodup
  reached : ∀ b ∈ included, JumpsTo p starts included b

theorem Joined.empty (starts : List BlockId) : Joined p starts [] := ⟨.nil, by simp⟩

/-- Does the graph start at the block, or jump to it? -/
def Offered (p : Program) (starts included : List BlockId) (b : BlockId) : Prop :=
  b ∈ starts ∨ ∃ x ∈ included, ∃ block, p.block x = .ok block ∧ ∃ c ∈ block.code.endCalls,
    c.target = b

theorem Joined.append (h : Joined p starts included) (hb : Offered p starts included b)
    (hnew : b ∉ included) : Joined p starts (included ++ [b]) where
  nodup := by
    rw [nodup_append]
    refine ⟨h.nodup, by simp, ?_⟩
    rintro x hx y hy rfl
    exact hnew (mem_singleton.mp hy ▸ hx)
  reached x hx := by
    have hsub : included ⊆ included ++ [b] := subset_append_left _ _
    have hmem : b ∈ included ++ [b] := by simp
    obtain hx | hx := mem_append.mp hx
    · exact (h.reached x hx).mono hsub
    · obtain rfl := mem_singleton.mp hx
      obtain hstart | ⟨y, hy, block, hblock, c, hc, rfl⟩ := hb
      · exact .start hstart hmem
      · exact .next ((h.reached y hy).mono hsub) hblock hc hmem

theorem joined_of_foldlM {α : Type} {f : List BlockId → α → Except Fault (List BlockId)}
    {items : List α}
    (hstep : ∀ a ∈ items, ∀ {x y : List BlockId}, included ⊆ x → Joined p starts x → f x a = .ok y →
      Joined p starts y ∧ x ⊆ y)
    (h : Joined p starts included) (hrun : items.foldlM f included = .ok included') :
    Joined p starts included' ∧ included ⊆ included' := by
  induction items generalizing included with
  | nil =>
    obtain rfl := Except.ok.inj hrun
    exact ⟨h, fun _ => id⟩
  | cons a items ih =>
    rw [foldlM_cons] at hrun
    obtain ⟨x, hx, hrun⟩ := bind_eq_ok_iff.mp hrun
    obtain ⟨hjoined, hsub⟩ := hstep a (.head ..) (fun _ => id) h hx
    obtain ⟨hjoined', hsub'⟩ := ih (fun a ha x y hxy =>
      hstep a (.tail _ ha) (List.Subset.trans hsub hxy)) hjoined hrun
    exact ⟨hjoined', List.Subset.trans hsub hsub'⟩

theorem includeBlock_joined {fuel : Nat} {src : DefnId} (h : Joined p starts included)
    (hb : Offered p starts included b)
    (hrun : includeBlock p small fuel src included b = .ok included') :
    Joined p starts included' ∧ included ⊆ included' := by
  induction fuel generalizing src included included' b with
  | zero =>
    obtain rfl := Except.ok.inj hrun
    exact ⟨h, fun _ => id⟩
  | succ fuel ih =>
    rw [includeBlock] at hrun
    split at hrun
    · obtain rfl := Except.ok.inj hrun
      exact ⟨h, fun _ => id⟩
    · rename_i hnew
      rw [List.contains_iff_mem] at hnew
      obtain ⟨out, hout, hrun⟩ := bind_eq_ok_iff.mp hrun
      cases out with
      | true =>
        obtain rfl := Except.ok.inj hrun
        exact ⟨h, fun _ => id⟩
      | false =>
        obtain ⟨block, hblock, hrun⟩ := bind_eq_ok_iff.mp hrun
        have hfold := joined_of_foldlM (fun c hc x y hxy hx hy => ih hx ?_ hy)
          (h.append hb hnew) hrun
        · exact ⟨hfold.1, List.Subset.trans (List.subset_append_left _ _) hfold.2⟩
        · exact .inr ⟨b, hxy (by simp), block, hblock, c, hc, rfl⟩

end Included

/-- The labels of a graph are joined by edges that both ends know of, each kind of label has the
edges that belong to it, and every included block has its code in one place. -/
structure WellFormed (g : FlowGraph) : Prop where
  distinctSources : ∀ l ∈ g.labels, l.sources.Nodup
  succs : ∀ i j : Nat, (∃ l, g.labels[i]? = some l ∧ j ∈ l.succs) ↔
    ∃ l, g.labels[j]? = some l ∧ .label i ∈ l.sources
  entry : ∀ j : Nat, j ∈ g.entry ↔ ∃ l, g.labels[j]? = some l ∧ .entry ∈ l.sources
  goto : ∀ l ∈ g.labels, ∀ target, l.kind = .goto target → l.preds.length = 1 ∧ l.succs = [target]
  call : ∀ l ∈ g.labels, ∀ c, l.kind = .call c →
    l.preds.length = 1 ∧ l.succs = [] ∧ c.target ∉ g.included
  nodup : g.included.Nodup
  code : ∀ l ∈ g.labels, ∀ b, l.kind = .code b → b ∈ g.included
  unique : ∀ b ∈ g.included, ∃! i : Nat, ∃ l, g.labels[i]? = some l ∧ l.kind = .code b

variable {p : Program} {small : Nat} {next next' : Nat} {functions : List (BlockId × List Temp)}
  {g : FlowGraph}

/-- Parameters are eliminated by renaming or merging, which leaves all else of a label alone. -/
theorem eliminateParams_labels {kind : Kind} {labels : Array Label} {ls ls' : List Label}
    {renames renames' : Subst}
    (h : eliminateParams p kind labels ls renames = .ok (ls', renames')) :
    List.Forall₂ (fun l l' => ∃ phis, l' = { l with phis }) ls ls' := by
  induction ls generalizing ls' renames renames' with
  | nil =>
    obtain ⟨rfl, -⟩ := Prod.mk.inj (Except.ok.inj h)
    exact .nil
  | cons l ls ih =>
    have hrest {l' : Label} {renames1 : Subst} (hl : ∃ phis, l' = { l with phis })
        (hrun : (eliminateParams p kind labels ls renames1 >>= fun r =>
          (pure (l' :: r.1, r.2) : Except Fault _)) = .ok (ls', renames')) :
        List.Forall₂ (fun l l' => ∃ phis, l' = { l with phis }) (l :: ls) ls' := by
      obtain ⟨⟨ls1, renames2⟩, hls, hrun⟩ := bind_eq_ok_iff.mp hrun
      obtain ⟨rfl, -⟩ := Prod.mk.inj (Except.ok.inj hrun)
      exact .cons hl (ih hls)
    rw [eliminateParams] at h
    split at h
    · obtain ⟨block, -, h⟩ := bind_eq_ok_iff.mp h
      dsimp only at h
      split at h
      · obtain ⟨_, -, h⟩ := bind_eq_ok_iff.mp h
        exact hrest ⟨_, rfl⟩ h
      · obtain ⟨phis, -, h⟩ := bind_eq_ok_iff.mp h
        exact hrest ⟨_, rfl⟩ h
    · exact hrest ⟨_, rfl⟩ h

theorem getElem?_of_forall₂ {α β : Type} {R : α → β → Prop} {xs : List α} {ys : List β}
    (h : List.Forall₂ R xs ys) (i : Nat) :
    xs[i]? = none ∧ ys[i]? = none ∨ ∃ x y, xs[i]? = some x ∧ ys[i]? = some y ∧ R x y := by
  induction h generalizing i with
  | nil => simp
  | cons hxy _ ih =>
    cases i with
    | zero => exact .inr ⟨_, _, rfl, rfl, hxy⟩
    | succ i => exact ih i

theorem Draft.Explored.hasCode {n : Nat} {out : Arcs} {d : Draft} {included starts : List BlockId}
    (h : d.Explored p included n out) (hn : d.labels.size ≤ n)
    (hstarts : ∀ b ∈ starts, b ∈ included → d.HasCode b) {b : BlockId}
    (hb : JumpsTo p starts included b) : d.HasCode b := by
  induction hb with
  | start hstart hmem => exact hstarts _ hstart hmem
  | next _ hblock hc hmem ih =>
    obtain ⟨k, l, hl, hkind⟩ := ih
    have hlt := (Array.getElem?_eq_some_iff.mp hl).1
    exact h.closed (lt_of_lt_of_le hlt hn) hl hkind hblock _ hc hmem

theorem wellFormed_of_explored {n : Nat} {out : Arcs} {d : Draft} {starts : List BlockId}
    (h : d.Explored p g.included n out) (hn : d.labels.size ≤ n)
    (hjoined : Joined p starts g.included) (hstarts : ∀ b ∈ starts, b ∈ g.included → d.HasCode b)
    (hentry : g.entry = out .entry)
    (hlabels : List.Forall₂ (fun l l' => ∃ phis, l' = { l with phis }) d.labels.toList
      g.labels.toList) :
    g.WellFormed := by
  have hlabel (i : Nat) : d.labels[i]? = none ∧ g.labels[i]? = none ∨
      ∃ l l', d.labels[i]? = some l ∧ g.labels[i]? = some l' ∧ l'.kind = l.kind ∧
        l'.preds = l.preds ∧ l'.succs = out (.label i) := by
    have hat := getElem?_of_forall₂ hlabels i
    simp only [Array.getElem?_toList] at hat
    obtain hnone | ⟨l, l', hl, hl', phis, hphis⟩ := hat
    · exact .inl hnone
    · have hlt := (Array.getElem?_eq_some_iff.mp hl).1
      have hdone := h.done (by omega) hl
      exact .inr ⟨l, l', hl, hl', by rw [hphis], by rw [hphis], by rw [hphis, hdone]⟩
  have hsuccs (i j : Nat) : (∃ l, g.labels[i]? = some l ∧ j ∈ l.succs) ↔ j ∈ out (.label i) := by
    obtain ⟨hnone, hnone'⟩ | ⟨l, l', -, hl', -, -, hsuccs⟩ := hlabel i
    · simp [hnone', h.arcs.silent (Array.getElem?_eq_none_iff.mp hnone)]
    · simp [hl', hsuccs]
  have hpreds (s : Source) (j : Nat) :
      (∃ l, g.labels[j]? = some l ∧ s ∈ l.sources) ↔ j ∈ out s := by
    rw [h.arcs.mem_iff]
    obtain ⟨hnone, hnone'⟩ | ⟨l, l', hl, hl', -, hpreds, -⟩ := hlabel j
    · simp [hnone, hnone']
    · simp [hl, hl', Label.sources, hpreds]
  have hfits {l' : Label} (hl' : l' ∈ g.labels) : l'.Fits g.included l'.succs ∧
    l'.sources.Nodup := by
    obtain ⟨i, hi⟩ := Array.mem_iff_getElem?.mp hl'
    obtain ⟨-, hnone⟩ | ⟨l, l'', hl, hl'', hkind, hpreds, hsuccs⟩ := hlabel i
    · rw [hi] at hnone
      cases hnone
    · obtain rfl := Option.mem_unique hi hl''
      have hfits := h.fits hl
      have hdistinct := h.arcs.distinct hl
      rw [Label.Fits, ← hkind, ← hpreds, ← hsuccs] at hfits
      rw [Label.sources, ← hpreds] at hdistinct
      exact ⟨hfits, hdistinct⟩
  refine ⟨fun l hl => (hfits hl).2, fun i j => (hsuccs i j).trans (hpreds _ j).symm, fun j => ?_,
    fun l hl target hkind => ?_, fun l hl c hkind => ?_, hjoined.nodup, fun l hl b hkind => ?_,
    fun b hb => ?_⟩
  · rw [hentry]
    exact (hpreds .entry j).symm
  · simpa only [Label.Fits, hkind] using (hfits hl).1
  · simpa only [Label.Fits, hkind] using (hfits hl).1
  · simpa only [Label.Fits, hkind] using (hfits hl).1
  · obtain ⟨i, l, hl, hkind⟩ := h.hasCode hn hstarts (hjoined.reached b hb)
    refine ⟨i, ?_, ?_⟩
    · obtain ⟨hnone, -⟩ | ⟨l1, l', hl1, hl', hkind', -⟩ := hlabel i
      · rw [hl] at hnone
        cases hnone
      · obtain rfl := Option.mem_unique hl hl1
        exact ⟨l', hl', hkind'.trans hkind⟩
    · rintro j ⟨m', hm', hmkind⟩
      obtain ⟨-, hnone⟩ | ⟨m, m'', hm, hm'', hkind', -⟩ := hlabel j
      · rw [hm'] at hnone
        cases hnone
      · obtain rfl := Option.mem_unique hm' hm''
        exact h.unique hm hl (hkind'.symm.trans hmkind) hkind

theorem graph_wellFormed {kind : Kind} {included : List BlockId} {calls : List Call}
    (hjoined : Joined p (calls.map Call.target) included)
    (hrun : graph p kind included calls next = .ok (g, next')) : g.WellFormed := by
  obtain ⟨out, hwired, hadds, hlen, hcode⟩ :=
    (Draft.Wired.empty included (next + 1)).edges (s := .entry) trivial calls
  generalize hstart : Draft.edges included .entry ⟨next + 1, #[]⟩ calls = start at *
  obtain ⟨entry, d⟩ := start
  simp only [graph, hstart, bind_eq_ok_iff] at hrun
  obtain ⟨d', hfind, ⟨labels, renames⟩, hparams, hrun⟩ := hrun
  obtain ⟨rfl, -⟩ := Prod.mk.inj (Except.ok.inj hrun)
  have hsize : d.labels.size ≤ calls.length := by simpa [hlen] using hadds.size
  have hexplored : d.Explored p included 0 out :=
    ⟨hwired, fun hk => by omega, fun _ hl => hadds.fresh (Nat.zero_le _) hl, fun hk => by omega⟩
  have hbound : labelBound p included calls = calls.length + (included.map (Draft.jumps p)).sum :=
    rfl
  obtain ⟨out', n, hexplored', hn, hentry, hkept⟩ := Draft.findSuccs_explored included
    hexplored (fun b hb => .inl hb) (by omega) hfind
  refine wellFormed_of_explored hexplored' hn hjoined (fun b hb hmem => ?_) ?_
    (by simpa using eliminateParams_labels hparams)
  · obtain ⟨c, hc, rfl⟩ := mem_map.mp hb
    exact hkept _ (hcode c hc hmem)
  · rw [hentry, hadds.arrived, nil_append]

theorem blockGraph_wellFormed {b : BlockId} {params : List Temp}
    (hrun : blockGraph p small b params next = .ok (g, next')) : g.WellFormed := by
  simp only [blockGraph, bind_eq_ok_iff] at hrun
  obtain ⟨block, hblock, included, hincluded, hrun⟩ := hrun
  have hstart : Joined p [b] [b] :=
    ⟨nodup_singleton b, fun x hx => .start hx hx⟩
  refine graph_wellFormed (joined_of_foldlM (fun c hc x y hsub hx hy => ?_) hstart hincluded).1 hrun
  exact includeBlock_joined hx (.inr ⟨b, hsub (by simp), block, hblock, c, hc, rfl⟩) hy

theorem closureGraph_wellFormed {k : ClosureId}
    (hrun : closureGraph p small k next = .ok (g, next')) : g.WellFormed := by
  simp only [closureGraph, bind_eq_ok_iff] at hrun
  obtain ⟨closure, -, included, hincluded, hrun⟩ := hrun
  refine graph_wellFormed (joined_of_foldlM (fun c hc x y hsub hx hy => ?_) (.empty _) hincluded).1
    hrun
  exact includeBlock_joined hx (.inl (mem_map_of_mem hc)) hy

theorem initGraph_wellFormed {calls : List (TopId × Call)}
    (hrun : initGraph p small calls next = .ok (g, next')) : g.WellFormed := by
  simp only [initGraph, bind_eq_ok_iff] at hrun
  obtain ⟨included, hincluded, hrun⟩ := hrun
  refine graph_wellFormed (joined_of_foldlM (fun c hc x y hsub hx hy => ?_) (.empty _) hincluded).1
    hrun
  exact includeBlock_joined hx (.inl (by simpa using ⟨_, _, hc, rfl⟩)) hy

theorem graphs_wellFormed {ds : List DefnId} {gs : List FlowGraph}
    (hrun : graphs p small functions ds next = .ok (gs, next')) : ∀ g ∈ gs, g.WellFormed := by
  induction ds generalizing next next' gs with
  | nil =>
    obtain ⟨rfl, -⟩ := Prod.mk.inj (Except.ok.inj hrun)
    simp
  | cons d ds ih =>
    have hmake {make : Except Fault (FlowGraph × Nat)}
        (hmade : ∀ {g : FlowGraph} {next : Nat}, make = .ok (g, next) → g.WellFormed)
        (hrun : (make >>= fun r => graphs p small functions ds r.2 >>= fun rs =>
          (pure (r.1 :: rs.1, rs.2) : Except Fault _)) = .ok (gs, next')) :
        ∀ g ∈ gs, g.WellFormed := by
      obtain ⟨⟨g, next1⟩, hg, hrun⟩ := bind_eq_ok_iff.mp hrun
      obtain ⟨⟨gs1, next2⟩, hgs, hrun⟩ := bind_eq_ok_iff.mp hrun
      obtain ⟨rfl, -⟩ := Prod.mk.inj (Except.ok.inj hrun)
      exact forall_mem_cons.mpr ⟨hmade hg, ih hgs⟩
    unfold graphs at hrun
    split at hrun
    · split at hrun
      · rw [bind_map_left] at hrun
        exact hmake blockGraph_wellFormed hrun
      · exact ih hrun
    · rw [bind_map_left] at hrun
      exact hmake closureGraph_wellFormed hrun
    · exact ih hrun

theorem allGraphs_wellFormed {gs : List FlowGraph} (hrun : allGraphs p small functions = .ok gs) :
    ∀ g ∈ gs, g.WellFormed := by
  obtain ⟨⟨gs1, next⟩, hgs, hrun⟩ := bind_eq_ok_iff.mp hrun
  obtain ⟨calls, -, hrun⟩ := bind_eq_ok_iff.mp hrun
  split at hrun
  · obtain rfl := Except.ok.inj hrun
    exact graphs_wellFormed hgs
  · obtain ⟨⟨g, next'⟩, hg, hrun⟩ := bind_eq_ok_iff.mp hrun
    obtain rfl := Except.ok.inj hrun
    exact forall_mem_append.mpr ⟨graphs_wellFormed hgs, by simpa using initGraph_wellFormed hg⟩

end FlowGraph

/-- All graphs that are built of a program are well formed. -/
theorem Edit.flowGraphs_wellFormed (small : Nat) (p p' : Program) (gs : List FlowGraph)
    (hrun : flowGraphs small p = .ok gs p') : ∀ g ∈ gs, g.WellFormed := by
  simp only [flowGraphs, bind_ok_iff, read_eq_ok_iff] at hrun
  obtain ⟨_, _, -, functions, p1, -, hgraphs, -⟩ := hrun
  exact FlowGraph.allGraphs_wellFormed hgraphs

/-- A loop that is entered twice by its first block. It waits for the last block and also ends
there. -/
def weave : Program where
  temps := ⟨.replicate 6 none⟩
  blocks := #[
    { params := [⟨1⟩]
      code := .branch (.temp ⟨1⟩) ⟨⟨1⟩, [.word 1]⟩ ⟨⟨1⟩, [.word 2]⟩ },
    { params := [⟨2⟩]
      code := .bind [⟨3⟩] (.call ⟨⟨2⟩, [.temp ⟨2⟩]⟩)
        (.branch (.temp ⟨3⟩) ⟨⟨0⟩, [.temp ⟨3⟩]⟩ ⟨⟨2⟩, [.temp ⟨2⟩]⟩) },
    { params := [⟨4⟩]
      code := .bind [⟨5⟩] (.prim .add [.temp ⟨4⟩, .word 1]) (.done (.ret [.temp ⟨5⟩])) }]
  entrypoints := [.block ⟨0⟩]

theorem Edit.flowGraphs_wellFormed_weave : ∃ p gs p',
    (computeComponents *> countOccurrences) weave = .ok () p ∧ flowGraphs 0 p = .ok gs p' ∧
      gs.map (fun g => g.labels.toList.map FlowGraph.Label.kind) = [[.code ⟨2⟩],
        [.code ⟨0⟩, .code ⟨1⟩, .goto 1, .call ⟨⟨2⟩, [.temp ⟨2⟩]⟩]] ∧
      ∀ g ∈ gs, g.WellFormed := by
  obtain ⟨gs, p', hrun, htest⟩ := exists_ok
    (r := ((computeComponents *> countOccurrences) >>= fun _ => flowGraphs 0) weave)
    (fun gs _ => gs.map (fun g => g.labels.toList.map FlowGraph.Label.kind) == [[.code ⟨2⟩],
      [.code ⟨0⟩, .code ⟨1⟩, .goto 1, .call ⟨⟨2⟩, [.temp ⟨2⟩]⟩]]) (by cbv)
  obtain ⟨⟨⟩, p, hshake, hgraphs⟩ := bind_ok_iff.mp hrun
  exact ⟨p, gs, p', hshake, hgraphs, eq_of_beq htest, flowGraphs_wellFormed 0 p p' gs hgraphs⟩

end MonadicIR
