import MonadicIR.Proofs.Vocabulary

namespace MonadicIR

open Edit Program

/-- Nothing but notes has changed. -/
structure Program.SameButNotes (p q : Program) : Prop where
  outlines : q.outline? = p.outline?
  temps : q.temps = p.temps
  entrypoints : q.entrypoints = p.entrypoints
  components : q.components = p.components

namespace Program.SameButNotes

theorem refl (p : Program) : p.SameButNotes p := ⟨rfl, rfl, rfl, rfl⟩

theorem trans {p q r : Program} (h : p.SameButNotes q) (h' : q.SameButNotes r) : p.SameButNotes r :=
  ⟨h'.outlines.trans h.outlines, h'.temps.trans h.temps, h'.entrypoints.trans h.entrypoints,
    h'.components.trans h.components⟩

theorem mapNotes (p : Program) (f : DefnId → Notes → Notes) : p.SameButNotes (p.mapNotes f) := by
  refine ⟨?_, rfl, rfl, rfl⟩
  funext d
  cases d <;> simp only [Program.outline?, Program.mapNotes, Array.getElem?_mapIdx,
    Option.map_map] <;>
    rfl

theorem modifyNotes (p : Program) (d : DefnId) (f : Notes → Notes) :
    p.SameButNotes (p.modifyNotes d f) := by
  have hmodify {α β : Type} (xs : Array α) (i j : Nat) (g : α → α) (out : α → β)
      (hg : ∀ x, out (g x) = out x) : (xs.modify i g)[j]?.map out = xs[j]?.map out := by
    rw [Array.getElem?_modify]
    split
    · simp only [Option.map_map, Function.comp_def, hg]
    · rfl
  cases d with
  | block b =>
    refine ⟨funext fun e => ?_, rfl, rfl, rfl⟩
    cases e with
    | block c => exact hmodify _ _ _ _ _ fun _ => rfl
    | closure _ | top _ => rfl
  | closure k =>
    refine ⟨funext fun e => ?_, rfl, rfl, rfl⟩
    cases e with
    | closure c => exact hmodify _ _ _ _ _ fun _ => rfl
    | block _ | top _ => rfl
  | top t =>
    refine ⟨funext fun e => ?_, rfl, rfl, rfl⟩
    cases e with
    | top u => exact hmodify _ _ _ _ _ fun _ => rfl
    | block _ | closure _ => rfl

end Program.SameButNotes

namespace Edit

variable {α β : Type}

/-- The edit changes nothing but notes, also if it fails. -/
def OnlyNotes (e : Edit α) : Prop := ∀ p : Program, p.SameButNotes (endState (e p))

namespace OnlyNotes

protected theorem pure (a : α) : OnlyNotes (pure a) := fun p => .refl p

theorem read (f : Program → Except Fault α) : OnlyNotes (Edit.read f) := by
  intro p
  unfold Edit.read
  cases f p <;> exact .refl p

protected theorem bind {e : Edit α} {f : α → Edit β} (he : OnlyNotes e)
    (hf : ∀ a, OnlyNotes (f a)) : OnlyNotes (e >>= f) := by
  intro p
  have hp := he p
  simp only [bind, EStateM.bind]
  cases hres : e p with
  | ok a q =>
    rw [hres] at hp
    exact hp.trans (hf a q)
  | error _ q =>
    rw [hres] at hp
    exact hp

theorem modify {f : Program → Program} (hf : ∀ p : Program, p.SameButNotes (f p)) :
    OnlyNotes (modify f : Edit Unit) := hf

theorem modifyNotes (d : DefnId) (f : Notes → Notes) : OnlyNotes (modifyNotes d f) :=
  .bind (.read _) fun _ => .modify fun p => .modifyNotes p d f

end OnlyNotes

theorem onlyNotes_supposeAll (ds : List DefnId) : OnlyNotes (supposeAll ds) := by
  induction ds with
  | nil => exact .pure ()
  | cons d ds ih => exact .bind (.modifyNotes d _) fun _ => ih

theorem onlyNotes_withdraw (ds : List DefnId) : OnlyNotes (withdraw ds) := by
  induction ds with
  | nil => exact .pure false
  | cons d ds ih =>
    have hrest (refuted : Bool) : OnlyNotes (do
        if refuted then noteNeverReturns false d
        let others ← withdraw ds
        return refuted || others) := by
      split
      · exact .bind (.modifyNotes d _) fun _ => .bind ih fun _ => .pure _
      · exact .bind ih fun _ => .pure _
    unfold withdraw
    refine .bind (.read _) fun notes => ?_
    dsimp only
    split
    · exact .bind (.read _) fun holds => .bind (.pure _) hrest
    · exact .bind (.pure _) hrest

theorem onlyNotes_settle (members : List DefnId) (fuel : Nat) :
    OnlyNotes (settle members fuel) := by
  induction fuel with
  | zero => exact .pure ()
  | succ fuel ih =>
    unfold settle
    refine .bind (onlyNotes_withdraw members) fun again => ?_
    split
    · exact ih
    · exact .pure _

theorem onlyNotes_returnAnalysis : OnlyNotes returnAnalysis := by
  have hof (cs : List Component) : OnlyNotes (returnAnalysisOf cs) := by
    induction cs with
    | nil => exact .pure ()
    | cons c cs ih =>
      exact .bind (onlyNotes_supposeAll _) fun _ => .bind (onlyNotes_settle _ _) fun _ => ih
  exact fun p => hof p.components.toList p

theorem onlyNotes_countOccurrences : OnlyNotes countOccurrences := by
  have hcount (rs : List Reference) : OnlyNotes (countReferences rs) := by
    induction rs with
    | nil => exact .pure ()
    | cons x rs ih => exact .bind (.modifyNotes x.1 _) fun _ => ih
  exact .bind (.modify fun p => .mapNotes p _) fun _ => .bind (.read _) hcount

end Edit

def Origin.handsOff : Origin → Bool
  | continuation _ | entering _ _ => true
  | source | known _ _ | shared _ _ => false

/-- May the definition have come to exist in this way? -/
def Options.Allows (o : Options) (d : DefnId) (x : Origin) : Prop :=
  x.depth ≤ o.deriveDepth ∨ o.inlining = true ∧ x.handsOff = true ∧ ∃ b, d = .block b

/-- What a definition may lead to, and how it came to exist. -/
structure Realm where
  reach : Set DefnId
  origin : Origin

/-- The realms that were given out so far. -/
structure Realms where
  of : DefnId → Option Realm

namespace Realms

instance : Preorder Realms where
  le w w' := ∀ d l, w.of d = some l → w'.of d = some l
  le_refl _ _ _ h := h
  le_trans _ _ _ h h' d l hd := h' d l (h d l hd)

variable {w w' : Realms}

/-- All that the closures may lead to which a copy was made for. -/
def cover (w : Realms) (o : Origin) : Set DefnId :=
  {e | ∃ shapes k l, o.shapes? = some shapes ∧ ArgShape.closure k ∈ shapes ∧
    w.of (.closure k) = some l ∧ e ∈ l.reach}

theorem cover_mono (hle : w ≤ w') (o : Origin) : w.cover o ⊆ w'.cover o := by
  rintro e ⟨shapes, k, l, hshapes, hk, hl, he⟩
  exact ⟨shapes, k, l, hshapes, hk, hle _ _ hl, he⟩

def add (w : Realms) (d : DefnId) (l : Realm) : Realms :=
  ⟨fun e => if e = d then some l else w.of e⟩

@[simp] theorem add_self (w : Realms) (d : DefnId) (l : Realm) : (w.add d l).of d = some l := by
  simp [add]

theorem add_of_ne {d e : DefnId} (l : Realm) (h : e ≠ d) : (w.add d l).of e = w.of e := by
  simp [add, h]

theorem le_add {d : DefnId} {l : Realm} (h : w.of d = none) : w ≤ w.add d l := by
  intro e m he
  rw [add_of_ne l (by rintro rfl; simp [h] at he), he]

end Realms

/-- What is asked of all definitions. -/
structure Charter where
  /-- The options of the run. -/
  options : Options
  /-- Is nothing asked but that the options allow all copies? -/
  free : Prop := False
  /-- May the wildcard be read? -/
  wildcard : Prop
  /-- What the body of a top-level may lead to. -/
  below : TopId → Set DefnId
  /-- Must the top-level stay an allocation? -/
  allocates : TopId → Prop
  /-- May everything lead to everything? Then definitions may be merged, and may be rejected. -/
  flat : Prop
  /-- Must all definitions have a realm, also those that are not retained? -/
  whole : Prop := False
  below_of_flat : flat → ∀ t, below t = Set.univ
  not_allocates_of_flat : flat → ∀ t, ¬allocates t
  legal : ¬flat → ∀ t, .top t ∈ below t → allocates t
  of_free : free → wildcard ∧ ¬flat ∧ ¬whole ∧ ∀ t, ¬allocates t := by exact False.elim

namespace Charter

variable {r : Charter} {w w' : Realms} {p q : Program} {X Y : Set DefnId} {d : DefnId} {l : Realm}

def Readable (r : Charter) (t : Temp) : Prop := t.isWildcard = true → r.wildcard

theorem readable_of_named {t : Temp} (h : t.isWildcard = false) : r.Readable t := by
  intro ht
  rw [h] at ht
  cases ht

/-- The definition has this realm, if any is asked for. -/
def Has (r : Charter) (w : Realms) (d : DefnId) (l : Realm) : Prop := r.free ∨ w.of d = some l

theorem Has.mono (h : r.Has w d l) (hle : w ≤ w') : r.Has w' d l := h.imp_right (hle d l)

/-- What code may mention that must not lead out of `X`. -/
def words (r : Charter) (w : Realms) (X : Set DefnId) : Vocabulary where
  temp := r.Readable
  defn d := ∃ l, r.Has w d l ∧ l.reach ⊆ X
  named _ := readable_of_named

theorem words_of_free (hfree : r.free) (d : DefnId) : (r.words w X).defn d :=
  ⟨⟨∅, .source⟩, .inl hfree, Set.empty_subset X⟩

theorem words_of_bound (hbound : ¬r.free) :
    (r.words w X).defn d ↔ ∃ l, w.of d = some l ∧ l.reach ⊆ X := by
  simp [words, Has, hbound]

theorem words_mono (hle : w ≤ w') (hX : X ⊆ Y) (d : DefnId) (h : (r.words w X).defn d) :
    (r.words w' Y).defn d := by
  obtain ⟨l, hl, hreach⟩ := h
  exact ⟨l, hl.mono hle, hreach.trans hX⟩

@[simp] theorem words_temp {t : Temp} : (r.words w X).temp t ↔ r.Readable t := Iff.rfl

@[simp] theorem within_temp {t : Temp} : (Atom.temp t).Within (r.words w X) ↔ r.Readable t :=
    Iff.rfl

end Charter

section Later

variable {r : Charter} {w w' : Realms} {X : Set DefnId} (hle : w ≤ w')

include hle

theorem Atom.Within.later {a : Atom} (h : a.Within (r.words w X)) : a.Within (r.words w' X) :=
  h.mono (Charter.words_mono hle subset_rfl) fun _ ht => ht

theorem Call.Within.later {c : Call} (h : c.Within (r.words w X)) : c.Within (r.words w' X) :=
  h.mono (Charter.words_mono hle subset_rfl) fun _ ht => ht

theorem Tail.Within.later {t : Tail} (h : t.Within (r.words w X)) : t.Within (r.words w' X) :=
  h.mono (Charter.words_mono hle subset_rfl) fun _ ht => ht

theorem Code.Within.later {code : Code} (h : code.Within (r.words w X)) :
    code.Within (r.words w' X) :=
  h.mono (Charter.words_mono hle subset_rfl) fun _ ht => ht

theorem Facts.Within.later {fs : Facts} (h : fs.Within (r.words w X)) : fs.Within (r.words w' X) :=
  h.mono (Charter.words_mono hle subset_rfl) fun _ ht => ht

theorem Subst.Within.later {s : Subst} (h : s.Within (r.words w X)) : s.Within (r.words w' X) :=
  h.mono (Charter.words_mono hle subset_rfl) fun _ ht => ht

theorem ArgShape.Within.later {s : ArgShape} (h : s.Within (r.words w X)) :
    s.Within (r.words w' X) :=
  h.mono (Charter.words_mono hle subset_rfl)

end Later

theorem Code.Within.wider {r : Charter} {w : Realms} {X Y : Set DefnId} {code : Code}
    (h : code.Within (r.words w X)) (hX : X ⊆ Y) : code.Within (r.words w Y) :=
  h.mono (Charter.words_mono (le_refl w) hX) fun _ ht => ht

namespace Charter

variable {r : Charter} {w w' : Realms} {p q : Program} {X Y : Set DefnId} {d : DefnId} {l : Realm}

def inner (r : Charter) (l : Realm) : DefnId → Set DefnId
  | .top t => r.below t
  | _ => l.reach

/-- The definition keeps to its realm. -/
structure Fits (r : Charter) (w : Realms) (d : DefnId) (l : Realm) (x : Outline) : Prop where
  origin : x.origin = l.origin
  body : x.body.Within (r.words w (r.inner l d))
  params : ∀ t ∈ x.params, r.Readable t
  derived : ∀ e ∈ x.derived, ∃ m, w.of e = some m ∧ m.reach ⊆ l.reach ∪ w.cover m.origin
  replacement : r.flat → ∀ e, x.replacement = some e → ∃ m, w.of e = some m
  allocates : ∀ t, d = .top t → r.allocates t → ∃ tail, x.body = .done tail ∧
    tail.isAllocator = true

/-- All definitions with a realm keep to it. -/
structure Fitting (r : Charter) (w : Realms) (p : Program) : Prop where
  bound : ¬r.free
  fits : ∀ {d l}, w.of d = some l → ∃ x, p.outline? d = some x ∧ r.Fits w d l x
  tops : ∀ {t l}, w.of (.top t) = some l → .top t ∈ l.reach ∧ r.below t ⊆ l.reach
  flat : r.flat → ∀ {d l}, w.of d = some l → l.reach = Set.univ
  whole : r.whole → ∀ {d x}, p.outline? d = some x → ∃ l, w.of d = some l

/-- All that is retained has a realm and keeps to it. -/
structure Holds (r : Charter) (w : Realms) (p : Program) : Prop extends r.Fitting w p where
  temps : p.temps.size = 0 → r.wildcard
  entrypoints : p.entrypoints ≠ [] ∧ ∀ d ∈ p.entrypoints, ∃ l, w.of d = some l
  retained : p.components.isEmpty = false ∧ ∀ d, p.Retained d → ∃ l, w.of d = some l

/-- What holds of the program at any time. -/
inductive Stands (r : Charter) (w : Realms) (p : Program) : Prop
  | free (hfree : r.free) (hallowed : ∀ d x, p.outline? d = some x → r.options.Allows d x.origin)
  | bound (h : r.Holds w p)

/-- Only definitions that may be rejected are, and only for their recursion. What has a realm can
always be redirected. -/
def contract (r : Charter) : Contract Realms where
  Holds := r.Stands
  Admits
    | .dangling _ => ¬r.whole
    | e => ∀ cs, e = .rejected cs →
      r.free ∨ r.flat ∧ ∀ c ∈ cs, ∃ names, c = .illegalRecursion names
  admits_fault _ _ h := by cases h
  admits_exhausted _ h := by cases h

/-- What the action returns mentions nothing that leads out of `X`. -/
abbrev Gives {α : Type} (r : Charter) (w : Realms) (X : Set DefnId) (x : Pass α)
    (P : Vocabulary → α → Prop) : Prop :=
  r.contract.Keeps w x fun w' => P (r.words w' X)

abbrev GivesSome {α : Type} (r : Charter) (w : Realms) (X : Set DefnId) (x : Pass (Option α))
    (P : Vocabulary → α → Prop) : Prop :=
  r.contract.KeepsSome w x fun w' => P (r.words w' X)

theorem Fits.mono {x : Outline} (h : r.Fits w d l x) (hle : w ≤ w') : r.Fits w' d l x where
  origin := h.origin
  body := h.body.later hle
  params := h.params
  derived := by
    intro e he
    obtain ⟨m, hm, hreach⟩ := h.derived e he
    exact ⟨m, hle e m hm, hreach.trans (Set.union_subset_union_right _ (Realms.cover_mono hle _))⟩
  replacement := by
    intro hflat e he
    obtain ⟨m, hm⟩ := h.replacement hflat e he
    exact ⟨m, hle e m hm⟩
  allocates := h.allocates

theorem Fitting.inner_subset (h : r.Fitting w p) (hl : w.of d = some l) :
    r.inner l d ⊆ l.reach := by
  cases d with
  | top t => exact (h.tops hl).2
  | block _ | closure _ => exact subset_rfl

theorem Fitting.congr (h : r.Fitting w p) (hout : q.outline? = p.outline?) : r.Fitting w q where
  bound := h.bound
  fits := by
    rw [hout]
    exact h.fits
  tops := h.tops
  flat := h.flat
  whole := by
    rw [hout]
    exact h.whole

theorem cover_subset (hbound : ¬r.free) {o : Origin} (ho : o.Within (r.words w X)) :
    w.cover o ⊆ X := by
  rintro e ⟨shapes, k, l, hshapes, hk, hl, he⟩
  cases o with
  | known own depth =>
    obtain rfl := Option.some.inj hshapes
    obtain ⟨m, hm, hreach⟩ := (words_of_bound hbound).mp (ho _ hk)
    obtain rfl := Option.mem_unique hl hm
    exact hreach he
  | source | shared _ _ | continuation _ | entering _ _ => cases hshapes

theorem Holds.closed (h : r.Holds w p) (X : Set DefnId) : (r.words w X).Closed p where
  body := by
    intro d x hd hx
    obtain ⟨l, hl, hreach⟩ := (words_of_bound h.bound).mp hd
    obtain ⟨y, hy, hfits⟩ := h.fits hl
    obtain rfl := Option.mem_unique hx hy
    exact hfits.body.wider ((h.inner_subset hl).trans hreach)
  params := by
    intro d x hd hx
    obtain ⟨l, hl, -⟩ := (words_of_bound h.bound).mp hd
    obtain ⟨y, hy, hfits⟩ := h.fits hl
    obtain rfl := Option.mem_unique hx hy
    exact hfits.params
  derived := by
    intro d e x y hd hx he hy horigin
    obtain ⟨l, hl, hreach⟩ := (words_of_bound h.bound).mp hd
    obtain ⟨x', hx', hfits⟩ := h.fits hl
    obtain rfl := Option.mem_unique hx hx'
    obtain ⟨m, hm, hsub⟩ := hfits.derived e he
    obtain ⟨y', hy', hfits'⟩ := h.fits hm
    obtain rfl := Option.mem_unique hy hy'
    -- The copy leads to no more than its source and the closures it was made for.
    have hcover : w.cover m.origin ⊆ X := cover_subset h.bound (hfits'.origin ▸ horigin)
    exact ⟨m, .inr hm, hsub.trans (Set.union_subset hreach hcover)⟩

namespace Stands

theorem holds (h : r.Stands w p) (hbound : ¬r.free) : r.Holds w p := by
  cases h with
  | free hfree _ => exact absurd hfree hbound
  | bound h => exact h

theorem fresh (h : r.Stands w p) {t : Temp} (ht : p.temps.size ≤ t.index) : r.Readable t := by
  intro hwild
  have hzero : t.index = 0 := by simpa [Temp.isWildcard] using hwild
  cases h with
  | free hfree _ => exact (r.of_free hfree).1
  | bound h => exact h.temps (by omega)

theorem closed (h : r.Stands w p) (X : Set DefnId) : (r.words w X).Closed p := by
  cases h with
  | free hfree _ =>
    have hread (t : Temp) : r.Readable t := fun _ => (r.of_free hfree).1
    exact ⟨fun _ _ => Code.within_of_refs hread fun e _ => words_of_free hfree e,
      fun _ _ t _ => hread t, fun _ _ _ _ _ => words_of_free hfree _⟩
  | bound h => exact h.closed X

theorem flat (h : r.Stands w p) (hflat : r.flat) (hl : r.Has w d l) : l.reach = Set.univ := by
  cases h with
  | free hfree _ => exact absurd hflat (r.of_free hfree).2.1
  | bound h => exact h.flat hflat (hl.resolve_left h.bound)

theorem retained (h : r.Stands w p) (hd : p.Retained d) : ∃ l, r.Has w d l := by
  cases h with
  | free hfree _ => exact ⟨⟨∅, .source⟩, .inl hfree⟩
  | bound h => exact (h.retained.2 d hd).imp fun _ => .inr

theorem change (h : r.Stands w p) {d : DefnId} (hother : ∀ e, e ≠ d → q.outline? e = p.outline? e)
    (hd : r.Holds w p → ∀ l, w.of d = some l → ∃ x, q.outline? d = some x ∧ r.Fits w d l x)
    (hold : ∀ x, q.outline? d = some x → ∃ y, p.outline? d = some y ∧ y.origin = x.origin)
    (htemps : p.temps.size ≤ q.temps.size) (hentry : q.entrypoints = p.entrypoints)
    (hcomps : q.components = p.components) : r.Stands w q := by
  have hback {e : DefnId} {x : Outline} (hx : q.outline? e = some x) :
      ∃ y, p.outline? e = some y ∧ y.origin = x.origin := by
    by_cases he : e = d
    · subst he
      exact hold x hx
    · exact ⟨x, (hother e he).symm.trans hx, rfl⟩
  cases h with
  | free hfree hallowed =>
    refine .free hfree fun e x hx => ?_
    obtain ⟨y, hy, horigin⟩ := hback hx
    exact horigin ▸ hallowed e y hy
  | bound h =>
    refine .bound ⟨⟨h.bound, @fun e l hl => ?_, h.tops, h.flat, fun hwhole e x hx => ?_⟩,
      fun hzero => h.temps (by omega), hentry ▸ h.entrypoints, ?_⟩
    · by_cases he : e = d
      · subst he
        exact hd h l hl
      · rw [hother e he]
        exact h.fits hl
    · obtain ⟨y, hy, -⟩ := hback hx
      exact h.whole hwhole hy
    · simp only [Retained, hcomps]
      exact h.retained

end Stands

theorem Holds.add (h : r.Holds w p) {x : Outline} (hnew : p.outline? d = none)
    (hother : ∀ e, e ≠ d → q.outline? e = p.outline? e) (hx : q.outline? d = some x)
    (hfits : r.Fits w d l x) (hd : ∀ t, d ≠ .top t) (hflat : r.flat → l.reach = Set.univ)
    (htemps : p.temps.size ≤ q.temps.size) (hentry : q.entrypoints = p.entrypoints)
    (hcomps : q.components = p.components) : w ≤ w.add d l ∧ r.Holds (w.add d l) q := by
  -- What was not there has no realm yet, so nothing that was said before changes.
  have hnone : w.of d = none := by
    cases hw : w.of d with
    | none => rfl
    | some m =>
      obtain ⟨y, hy, -⟩ := h.fits hw
      rw [hnew] at hy
      cases hy
  have hle : w ≤ w.add d l := Realms.le_add hnone
  have hof {e : DefnId} {m : Realm} (hm : (w.add d l).of e = some m) : e = d ∧ m = l ∨
      e ≠ d ∧ w.of e = some m := by
    by_cases he : e = d
    · subst he
      rw [Realms.add_self] at hm
      exact .inl ⟨rfl, (Option.some.inj hm).symm⟩
    · rw [Realms.add_of_ne l he] at hm
      exact .inr ⟨he, hm⟩
  refine ⟨hle, ⟨h.bound, ?_, ?_, ?_, ?_⟩, fun hzero => h.temps (by omega), ?_, ?_⟩
  · intro e m hm
    obtain ⟨rfl, rfl⟩ | ⟨he, hm⟩ := hof hm
    · exact ⟨x, hx, hfits.mono hle⟩
    · obtain ⟨y, hy, hfitsy⟩ := h.fits hm
      exact ⟨y, (hother e he).trans hy, hfitsy.mono hle⟩
  · intro t m hm
    obtain ⟨htop, -⟩ | ⟨-, hm⟩ := hof hm
    · exact absurd htop.symm (hd t)
    · exact h.tops hm
  · intro hf e m hm
    obtain ⟨-, rfl⟩ | ⟨-, hm⟩ := hof hm
    · exact hflat hf
    · exact h.flat hf hm
  · intro hwhole e y hy
    by_cases he : e = d
    · subst he
      exact ⟨l, Realms.add_self ..⟩
    · obtain ⟨m, hm⟩ := h.whole hwhole ((hother e he).symm.trans hy)
      exact ⟨m, hle e m hm⟩
  · rw [hentry]
    refine ⟨h.entrypoints.1, fun e he => ?_⟩
    obtain ⟨m, hm⟩ := h.entrypoints.2 e he
    exact ⟨m, hle e m hm⟩
  · simp only [Retained, hcomps]
    refine ⟨h.retained.1, fun e he => ?_⟩
    obtain ⟨m, hm⟩ := h.retained.2 e he
    exact ⟨m, hle e m hm⟩

theorem Stands.add (h : r.Stands w p) {x : Outline} (hnew : p.outline? d = none)
    (hother : ∀ e, e ≠ d → q.outline? e = p.outline? e) (hx : q.outline? d = some x)
    (hallowed : r.options.Allows d x.origin) (hfits : r.Fits w d l x) (hd : ∀ t, d ≠ .top t)
    (hflat : r.flat → l.reach = Set.univ) (htemps : p.temps.size ≤ q.temps.size)
    (hentry : q.entrypoints = p.entrypoints) (hcomps : q.components = p.components) :
    ∃ w', w ≤ w' ∧ r.Stands w' q ∧ r.Has w' d l := by
  cases h with
  | free hfree hall =>
    refine ⟨w, le_refl w, .free hfree fun e y hy => ?_, .inl hfree⟩
    by_cases he : e = d
    · subst he
      exact Option.mem_unique hx hy ▸ hallowed
    · exact hall e y ((hother e he).symm.trans hy)
  | bound h =>
    obtain ⟨hle, hholds⟩ := h.add hnew hother hx hfits hd hflat htemps hentry hcomps
    exact ⟨_, hle, .bound hholds, .inr (Realms.add_self ..)⟩

theorem Stands.sameButNotes (h : r.Stands w p) (hsame : p.SameButNotes q) : r.Stands w q := by
  refine h.change (d := .block ⟨0⟩) (fun e _ => by rw [hsame.outlines]) (fun h l hl => ?_)
    (fun x hx => ⟨x, by rw [← hsame.outlines, hx], rfl⟩) (by rw [hsame.temps]) hsame.entrypoints
    hsame.components
  rw [hsame.outlines]
  exact h.fits hl

theorem keeps_onlyNotes {α : Type} {e : Edit α} (he : e.OnlyNotes) :
    r.contract.Stays w (Pass.edit e) :=
  .edit fun p hp => ⟨.of_outlines (he p).outlines, w, le_refl w, hp.sameButNotes (he p),
    fun _ _ _ => trivial⟩

section Fresh

variable {α : Type} {ts : List Temp} {t : Temp}

theorem keeps_temps {f : Temps → α × Temps} {Q : Realms → α → Prop}
    (hsize : ∀ m, m.size ≤ (f m).2.size)
    (hQ : ∀ m : Temps, (∀ t : Temp, m.size ≤ t.index → r.Readable t) → Q w (f m).1) :
    r.contract.Keeps w (Pass.edit (update fun p =>
      ((f p.temps).1, { p with temps := (f p.temps).2 }))) Q := by
  refine .update fun p hp => ⟨.of_outlines rfl, w, le_refl w, ?_, hQ p.temps fun _ => hp.fresh⟩
  exact hp.change (d := .block ⟨0⟩) (fun _ _ => rfl) (fun h _ => h.fits) (fun x hx => ⟨x, hx, rfl⟩)
    (hsize p.temps) rfl rfl

theorem keeps_fresh : r.contract.Keeps w (Pass.edit fresh) fun _ t => r.Readable t :=
  keeps_temps (f := Temps.fresh) (fun m => by simp [Temps.fresh, Temps.freshTyped, Temps.size])
    fun _ hm => hm _ le_rfl

theorem keeps_freshN (n : Nat) :
    r.contract.Keeps w (Pass.edit (freshN n))
      fun _ ts => ts.length = n ∧ ∀ t ∈ ts, r.Readable t :=
  keeps_temps (f := fun m => m.freshN n) (fun m => (freshN_fresh m n).1.le)
    fun m hm => ⟨(freshN_fresh m n).2.1, fun t ht => hm t ((freshN_fresh m n).2.2 t ht)⟩

theorem keeps_freshLikeAll (hts : ∀ t ∈ ts, r.Readable t) :
    r.contract.Keeps w (Pass.edit (freshLikeAll ts)) fun _ us => ∀ u ∈ us, r.Readable u :=
  keeps_temps (f := fun m => m.freshLikeAll ts) (fun m => (m.freshLikeAll_fresh ts).le)
    fun m hm => (m.freshLikeAll_fresh ts).temp (V := r.words w ∅) hm hts

theorem keeps_freshLike (ht : r.Readable t) :
    r.contract.Keeps w (Pass.edit (freshLike t)) fun _ u => r.Readable u := by
  refine keeps_temps (f := fun m => m.freshLike t) (fun m => ?_) fun m hm => ?_
  · unfold Temps.freshLike
    split <;> simp [Temps.freshTyped, Temps.size]
  · -- The wildcard stands for itself, and so must be readable before.
    unfold Temps.freshLike
    split
    · exact ht
    · exact hm _ le_rfl

theorem keeps_freshParam (t : Temp) :
    r.contract.Keeps w (Pass.edit (freshParam t)) fun _ u => r.Readable u := by
  unfold freshParam
  split
  · exact keeps_fresh
  · rename_i ht
    exact keeps_freshLike (readable_of_named (by simpa using ht))

theorem keeps_freshParams (ts : List Temp) :
    r.contract.Keeps w (Pass.edit (freshParams ts)) fun _ us => ∀ u ∈ us, r.Readable u := by
  induction ts generalizing w with
  | nil =>
    rw [freshParams, Pass.edit_pure]
    exact .pure fun _ hu => by cases hu
  | cons t ts ih =>
    simp only [freshParams, Pass.edit_bind, Pass.edit_pure]
    refine .bind (keeps_freshParam t) fun w1 u _ hu => .bind ih fun w2 us _ hus => .pure ?_
    exact List.forall_mem_cons.mpr ⟨hu, hus⟩

theorem keeps_copyFresh {code : Code} {s : Subst} (hcode : code.Within (r.words w X))
    (hs : s.Within (r.words w X)) :
    r.contract.Keeps w (Pass.edit (copyFresh code s)) fun w' c => c.1.Within (r.words w' X) :=
  keeps_temps (f := fun m => (((code.copyFresh m s).1, (code.copyFresh m s).2.2),
      (code.copyFresh m s).2.1))
    (fun m => code.size_copyFresh m s) fun _ hm => hcode.copyFresh hs hm

end Fresh

section Changes

variable {l : Realm} {k : ClosureId} {b : BlockId}

theorem keeps_lookBlock (hl : r.Has w (.block b) l) :
    r.contract.Keeps w (Pass.look (·.block b))
      fun w' block => block.code.Within (r.words w' l.reach) :=
  .look fun _ _ hp hblock =>
    (hp.closed l.reach).block ⟨l, hl, subset_rfl⟩ (block_eq_ok_iff.mp hblock)

theorem keeps_lookClosure (hl : r.Has w (.closure k) l) :
    r.contract.Keeps w (Pass.look (·.closure k))
      fun w' closure => closure.tail.Within (r.words w' l.reach) :=
  .look fun _ _ hp hclosure =>
    ((hp.closed l.reach).closure ⟨l, hl, subset_rfl⟩ (closure_eq_ok_iff.mp hclosure)).1

theorem keeps_lookTop {t : TopId} (hl : r.Has w (.top t) l) :
    r.contract.Keeps w (Pass.look (·.top t)) fun w' top =>
      top.tail.Within (r.words w' (r.below t)) ∧ (r.allocates t → top.tail.isAllocator = true) := by
  refine .look fun p top hp htop => ?_
  have htop := top_eq_ok_iff.mp htop
  cases hp with
  | free hfree hall =>
    exact ⟨((Stands.free hfree hall).closed _).top (words_of_free hfree _) htop,
      fun ht => absurd ht ((r.of_free hfree).2.2.2 t)⟩
  | bound hp =>
    obtain ⟨x, hx, hfits⟩ := hp.fits (hl.resolve_left hp.bound)
    rw [outline?_top htop] at hx
    obtain rfl := Option.some.inj hx
    refine ⟨hfits.body, fun ht => ?_⟩
    obtain ⟨tail, htail, halloc⟩ := hfits.allocates t rfl ht
    cases htail
    exact halloc

theorem keeps_addBlock {block : Block} (hallowed : ∀ b, r.options.Allows (.block b) block.origin)
    (horigin : block.origin = l.origin) (hcode : block.code.Within (r.words w l.reach))
    (hderived : block.derived = []) (hreplaced : block.replacement = none)
    (hflat : r.flat → l.reach = Set.univ) :
    r.contract.Keeps w (Pass.edit (addBlock block)) fun w' b => r.Has w' (.block b) l := by
  refine .update fun p hp => ?_
  obtain ⟨hnew, hx, hother⟩ := p.outline?_addBlock block
  have hfits : r.Fits w (.block ⟨p.blocks.size⟩) l block.outline :=
    { origin := horigin
      body := hcode
      params := fun _ ht => by cases ht
      derived := by simp [Block.outline, hderived]
      replacement := by simp [Block.outline, hreplaced]
      allocates := fun _ ht => by cases ht }
  exact ⟨.of_outline hother, hp.add hnew hother hx (hallowed _) hfits (fun _ ht => by cases ht)
    hflat le_rfl rfl rfl⟩

theorem keeps_addClosure {closure : Closure}
    (hallowed : ∀ k, r.options.Allows (.closure k) closure.origin)
    (horigin : closure.origin = l.origin) (htail : closure.tail.Within (r.words w l.reach))
    (hparams : ∀ t ∈ closure.params, r.Readable t) (hderived : closure.derived = [])
    (hreplaced : closure.replacement = none) (hflat : r.flat → l.reach = Set.univ) :
    r.contract.Keeps w (Pass.edit (addClosure closure))
      fun w' k => r.Has w' (.closure k) l := by
  refine .update fun p hp => ?_
  obtain ⟨hnew, hx, hother⟩ := p.outline?_addClosure closure
  have hfits : r.Fits w (.closure ⟨p.closures.size⟩) l closure.outline :=
    { origin := horigin
      body := htail
      params := hparams
      derived := by simp [Closure.outline, hderived]
      replacement := by simp [Closure.outline, hreplaced]
      allocates := fun _ ht => by cases ht }
  exact ⟨.of_outline hother, hp.add hnew hother hx (hallowed _) hfits (fun _ ht => by cases ht)
    hflat le_rfl rfl rfl⟩

/-- An edit that fails, or changes one definition within its realm and nothing else. -/
theorem keeps_changeOne {d : DefnId} {e : Edit Unit}
    (h : ∀ p, endState (e p) = p ∨ ∃ x y, p.outline? d = some x ∧
      ((endState (e p)).outline? d = some y ∧
        ∀ c, c ≠ d → (endState (e p)).outline? c = p.outline? c) ∧
      (endState (e p)).temps = p.temps ∧ (endState (e p)).entrypoints = p.entrypoints ∧
      (endState (e p)).components = p.components ∧ x.origin = y.origin ∧
      (¬r.free → ∀ l, w.of d = some l → r.Fits w d l x → r.Fits w d l y)) :
    r.contract.Stays w (Pass.edit e) := by
  refine .edit fun p hp => ?_
  obtain hsame | ⟨x, y, hx, ⟨hy, hother⟩, htemps, hentry, hcomps, horigin, hfits⟩ := h p
  · rw [hsame]
    exact ⟨.of_outlines rfl, w, le_refl w, hp, fun _ _ _ => trivial⟩
  · refine ⟨.of_outline hother, w, le_refl w, ?_, fun _ _ _ => trivial⟩
    refine hp.change hother (fun hp l hl => ?_) (fun z hz => ⟨x, hx, ?_⟩) (by rw [htemps]) hentry
      hcomps
    · obtain ⟨z, hz, hfitsz⟩ := hp.fits hl
      obtain rfl := Option.mem_unique hx hz
      exact ⟨y, hy, hfits hp.bound l hl hfitsz⟩
    · exact Option.mem_unique hy hz ▸ horigin

theorem keeps_modifyBlock {f : Block → Block}
    (h : ¬r.free → ∀ l block, w.of (.block b) = some l → r.Fits w (.block b) l block.outline →
      r.Fits w (.block b) l (f block).outline)
    (hf : ∀ x, x.origin = (f x).origin := by exact fun _ => rfl) :
    r.contract.Stays w (Pass.edit (modifyBlock b f)) := by
  refine keeps_changeOne (d := .block b) fun p => ?_
  cases hblock : p.blocks[b.index]? with
  | none => simp [modifyBlock, Edit.read, block, hblock, bind, EStateM.bind, endState]
  | some block =>
    rw [(modifyBlock_eq_ok_iff (u := ())).mpr ⟨block, hblock, rfl⟩]
    exact .inr ⟨_, _, outline?_block hblock, outline?_setBlock hblock (f block),
      rfl, rfl, rfl, hf block, fun hbound l hl => h hbound l block hl⟩

theorem keeps_modifyClosure {f : Closure → Closure}
    (h : ¬r.free → ∀ l closure, w.of (.closure k) = some l →
      r.Fits w (.closure k) l closure.outline → r.Fits w (.closure k) l (f closure).outline)
    (hf : ∀ x, x.origin = (f x).origin := by exact fun _ => rfl) :
    r.contract.Stays w (Pass.edit (Edit.modifyClosure k f)) := by
  refine keeps_changeOne (d := .closure k) fun p => ?_
  cases hclosure : p.closures[k.index]? with
  | none =>
    simp [Edit.modifyClosure, Edit.read, Program.closure, hclosure, bind, EStateM.bind, endState]
  | some closure =>
    rw [(Edit.modifyClosure_eq_ok_iff (u := ())).mpr ⟨closure, hclosure, rfl⟩]
    exact .inr ⟨_, _, Program.outline?_closure hclosure,
      Program.outline?_setClosure hclosure (f closure), rfl, rfl, rfl, hf closure,
      fun hbound l hl => h hbound l closure hl⟩

theorem keeps_modifyTop {t : TopId} {f : TopLevel → TopLevel}
    (h : ¬r.free → ∀ l top, w.of (.top t) = some l → r.Fits w (.top t) l top.outline →
      r.Fits w (.top t) l (f top).outline) :
    r.contract.Stays w (Pass.edit (modifyTop t f)) := by
  refine keeps_changeOne (d := .top t) fun p => ?_
  cases htop : p.tops[t.index]? with
  | none => simp [modifyTop, Edit.read, Program.top, htop, bind, EStateM.bind, endState]
  | some top =>
    rw [(modifyTop_eq_ok_iff (u := ())).mpr ⟨top, htop, rfl⟩]
    exact .inr ⟨_, _, outline?_top htop, outline?_setTop htop (f top),
      rfl, rfl, rfl, rfl, fun hbound l hl => h hbound l top hl⟩

theorem Fits.withBody {d : DefnId} {x : Outline} (h : r.Fits w d l x) (body : Code)
    (hbody : body.Within (r.words w (r.inner l d)))
    (halloc : ∀ t, d = .top t → r.allocates t → ∃ tail, body = .done tail ∧
      tail.isAllocator = true) :
    r.Fits w d l { x with body } where
  origin := h.origin
  body := hbody
  params := h.params
  derived := h.derived
  replacement := h.replacement
  allocates := halloc

theorem keeps_setCode {code : Code} (hl : r.Has w (.block b) l)
    (hcode : code.Within (r.words w l.reach)) :
    r.contract.Stays w (Pass.edit (modifyBlock b fun block => { block with code })) := by
  refine keeps_modifyBlock fun hbound m block hm hfits => ?_
  obtain rfl := Option.some.inj ((hl.resolve_left hbound).symm.trans hm)
  exact hfits.withBody _ hcode fun _ ht => by cases ht

theorem keeps_setClosureTail {tail : Tail} (hl : r.Has w (.closure k) l)
    (htail : tail.Within (r.words w l.reach)) :
    r.contract.Stays w (Pass.edit (modifyClosure k fun closure => { closure with tail })) := by
  refine keeps_modifyClosure fun hbound m closure hm hfits => ?_
  obtain rfl := Option.some.inj ((hl.resolve_left hbound).symm.trans hm)
  exact hfits.withBody (.done tail) htail fun _ ht => by cases ht

theorem keeps_setTopTail {t : TopId} {tail : Tail} (htail : tail.Within (r.words w (r.below t)))
    (halloc : r.allocates t → tail.isAllocator = true) :
    r.contract.Stays w (Pass.edit (modifyTop t fun top => { top with tail })) := by
  refine keeps_modifyTop fun _ m top hm hfits => hfits.withBody (.done tail) htail ?_
  rintro _ ⟨⟩ ht
  exact ⟨tail, rfl, halloc ht⟩

end Changes

end Charter

end MonadicIR
