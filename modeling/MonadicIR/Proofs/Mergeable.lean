import MonadicIR.Optimiser.Merge
import MonadicIR.Proofs.Passes

namespace MonadicIR

/-- The block without the note of what it was merged into. -/
def Block.bare (b : Block) : Block := { b with replacement := none }

def Closure.bare (k : Closure) : Closure := { k with replacement := none }

theorem map_setIfInBounds_of_eq {α β : Type} {f : α → β} {xs : Array α} {i : Nat} {x y : α}
    (hx : xs[i]? = some x) (hf : f y = f x) : (xs.setIfInBounds i y).map f = xs.map f := by
  refine Array.ext_getElem? fun j => ?_
  rw [Array.getElem?_map, Array.getElem?_map, getElem?_setIfInBounds_of_some hx]
  split
  · rename_i hij
    rw [hij, hx, Option.map_some, Option.map_some, hf]
  · rfl

section Follow

variable {α : Type} [DecidableEq α] {note : α → Option α} {a : α}

/-- Where the notes lead to in so many steps at most. -/
def follow (note : α → Option α) : Nat → α → α
  | 0, a => a
  | fuel + 1, a => (note a).elim a fun b => if b = a then a else follow note fuel b

theorem follow_of_none (h : note a = none) (fuel : Nat) : follow note fuel a = a := by
  cases fuel with
  | zero => rfl
  | succ fuel => rw [follow, h, Option.elim_none]

theorem follow_eq_getD (h : ∀ c, note a = some c → note c = none) (fuel : Nat) :
    follow note (fuel + 1) a = (note a).getD a := by
  cases hc : note a with
  | none => exact follow_of_none hc _
  | some c =>
    rw [follow, hc, Option.elim_some, follow_of_none (h c hc), Option.getD_some, ite_eq_right_iff]
    exact Eq.symm

end Follow

namespace Program

variable {p q : Program}

/-- The program without the notes of what was merged. -/
def bare (p : Program) : Program :=
  { p with blocks := p.blocks.map Block.bare, closures := p.closures.map Closure.bare }

theorem defns_of_bare (h : q.bare = p.bare) : q.defns = p.defns := by
  have hbare (r : Program) : r.bare.defns = r.defns := by
    simp [bare, defns, allDefns, blockIds, closureIds, topIds]
  rw [← hbare, h, hbare]

theorem isEntrypoint_of_bare (h : q.bare = p.bare) : q.isEntrypoint = p.isEntrypoint := by
  have hbare := congrArg Program.isEntrypoint h
  exact hbare

def blockNote (p : Program) (b : BlockId) : Option BlockId :=
  (p.blocks[b.index]?).bind Block.replacement

def closureNote (p : Program) (k : ClosureId) : Option ClosureId :=
  (p.closures[k.index]?).bind Closure.replacement

theorem blockReplacementFrom_eq_follow (p : Program) :
    p.blockReplacementFrom = follow p.blockNote := by
  funext fuel b
  induction fuel generalizing b with
  | zero => rfl
  | succ fuel ih =>
    rw [blockReplacementFrom, ← blockNote, follow]
    cases p.blockNote b <;> simp [ih]

theorem closureReplacementFrom_eq_follow (p : Program) :
    p.closureReplacementFrom = follow p.closureNote := by
  funext fuel k
  induction fuel generalizing k with
  | zero => rfl
  | succ fuel ih =>
    rw [closureReplacementFrom, ← closureNote, follow]
    cases p.closureNote k <;> simp [ih]

theorem blockReplacement_eq_getD {b : BlockId}
    (h : ∀ c, p.blockNote b = some c → p.blockNote c = none) :
    p.blockReplacement b = (p.blockNote b).getD b := by
  rw [blockReplacement, blockReplacementFrom_eq_follow, follow_eq_getD h]

theorem closureReplacement_eq_getD {k : ClosureId}
    (h : ∀ l, p.closureNote k = some l → p.closureNote l = none) :
    p.closureReplacement k = (p.closureNote k).getD k := by
  rw [closureReplacement, closureReplacementFrom_eq_follow, follow_eq_getD h]

/-- Both blocks are there, and they are equivalent. -/
def SameBlocks (p : Program) (b c : BlockId) : Prop :=
  ∃ x y, p.blocks[b.index]? = some x ∧ p.blocks[c.index]? = some y ∧ x.alphaEquiv y = true

def SameClosures (p : Program) (k l : ClosureId) : Prop :=
  ∃ x y, p.closures[k.index]? = some x ∧ p.closures[l.index]? = some y ∧ x.alphaEquiv y = true

end Program

theorem Groups.find_eq_some {α : Type} {groups : Groups α} {summary : Word} {same : α → Bool}
    {a : α} (h : groups.find summary same = some a) : a ∈ groups.map Prod.snd ∧ same a = true := by
  obtain ⟨g, hg, rfl⟩ := Option.map_eq_some_iff.mp h
  have hsame := List.find?_some hg
  simp only [Bool.and_eq_true] at hsame
  exact ⟨List.mem_map_of_mem (List.mem_of_find?_eq_some hg), hsame.2⟩

section Course

variable {α : Type} [DecidableEq α] {same : α → α → Prop} {mergeable : α → Prop}

/-- How the notes of the listed definitions are written, given those that were kept before. The flag
tells whether one was merged. -/
inductive Course (same : α → α → Prop) (mergeable : α → Prop) :
    List α → List α → (α → Option α) → (α → Option α) → Bool → Prop
  | nil {kept note} : Course same mergeable [] kept note note false
  | join {a c as kept note note' r} : mergeable a → c ∈ kept → same c a →
      Course same mergeable as kept (Function.update note a (some c)) note' r →
      Course same mergeable (a :: as) kept note note' true
  | keep {a as kept note note' r} :
      Course same mergeable as (kept ++ [a]) (Function.update note a none) note' r →
      Course same mergeable (a :: as) kept note note' r

theorem Course.settles {as kept : List α} {note note' : α → Option α} {r : Bool}
    (h : Course same mergeable as kept note note' r) (hnodup : as.Nodup)
    (hkept : ∀ c ∈ kept, c ∉ as ∧ note c = none) :
    (∀ a ∉ as, note' a = note a) ∧ ∀ a ∈ as, note' a = none ∨
      r = true ∧ mergeable a ∧ ∃ c, note' a = some c ∧ note' c = none ∧ same c a ∧
        (c ∈ as ∨ c ∈ kept) := by
  induction h with
  | nil => simp
  | @join a c as kept note note' r ha hc hca _ ih =>
    obtain ⟨hnew, hnodup⟩ := List.nodup_cons.mp hnodup
    obtain ⟨hrest, hall⟩ := ih hnodup fun d hd => by
      obtain ⟨hmem, hnone⟩ := hkept d hd
      rw [List.mem_cons, not_or] at hmem
      exact ⟨hmem.2, by rwa [Function.update_of_ne hmem.1]⟩
    obtain ⟨hmem, hnone⟩ := hkept c hc
    rw [List.mem_cons, not_or] at hmem
    refine ⟨fun b hb => ?_, fun b hb => ?_⟩
    · rw [List.mem_cons, not_or] at hb
      rw [hrest b hb.2, Function.update_of_ne hb.1]
    · obtain rfl | hb := List.mem_cons.mp hb
      · refine .inr ⟨rfl, ha, c, ?_, ?_, hca, .inr hc⟩
        · rw [hrest b hnew, Function.update_self]
        · rw [hrest c hmem.2, Function.update_of_ne hmem.1, hnone]
      · refine (hall b hb).imp_right ?_
        rintro ⟨-, hm, d, hd, hd', hdb, hdm⟩
        exact ⟨rfl, hm, d, hd, hd', hdb, hdm.imp_left (List.mem_cons_of_mem _)⟩
  | @keep a as kept note note' r _ ih =>
    obtain ⟨hnew, hnodup⟩ := List.nodup_cons.mp hnodup
    obtain ⟨hrest, hall⟩ := ih hnodup fun d hd => by
      obtain hd | hd := List.mem_append.mp hd
      · obtain ⟨hmem, hnone⟩ := hkept d hd
        rw [List.mem_cons, not_or] at hmem
        exact ⟨hmem.2, by rwa [Function.update_of_ne hmem.1]⟩
      · obtain rfl := List.mem_singleton.mp hd
        exact ⟨hnew, Function.update_self ..⟩
    refine ⟨fun b hb => ?_, fun b hb => ?_⟩
    · rw [List.mem_cons, not_or] at hb
      rw [hrest b hb.2, Function.update_of_ne hb.1]
    · obtain rfl | hb := List.mem_cons.mp hb
      · exact .inl (by rw [hrest b hnew, Function.update_self])
      · refine (hall b hb).imp_right ?_
        rintro ⟨hr, hm, d, hd, hd', hdb, hdm⟩
        refine ⟨hr, hm, d, hd, hd', hdb, ?_⟩
        simp only [List.mem_append, List.mem_cons] at hdm ⊢
        tauto

end Course

/-- Definitions of one kind, with what merging does to them. -/
structure Mergeable (ι δ : Type) [DecidableEq ι] where
  defn : ι → DefnId
  text : ι → String
  find? : Program → ι → Option δ
  summary : δ → Word
  equiv : δ → δ → Bool
  replacement : δ → Option ι
  /-- Writes the note. -/
  annotate : Option ι → δ → δ
  set : Program → ι → δ → Program
  look : ι → Program → Except Fault δ
  modify : ι → (δ → δ) → Edit Unit
  pass : List ι → Groups ι → Pass Bool
  look_eq_ok_iff {p a x} : look a p = .ok x ↔ find? p a = some x
  modify_eq_ok_iff {p q a f u} : modify a f p = .ok u q ↔ ∃ x, find? p a = some x ∧
    q = set p a (f x)
  pass_nil (groups) : pass [] groups = pure false
  pass_cons (a as groups) : pass (a :: as) groups = do
    let x ← Pass.look (look a)
    let p := (← get).program
    let same := groups.find (summary x) fun other => (find? p other).any (equiv · x)
    match if p.isEntrypoint (defn a) then none else same with
    | some other =>
      Pass.edit (modify a (annotate (some other)))
      Pass.workOn (some (defn a))
      Pass.report s!"{text a} is a copy of {text other}"
      let _ ← pass as groups
      return true
    | none =>
      Pass.edit (modify a (annotate none))
      pass as (groups ++ [(summary x, a)])
  find?_set {p a x} (h : find? p a = some x) (y b) :
    find? (set p a y) b = if b = a then some y else find? p b
  bare_set {p a x} (h : find? p a = some x) (r) : (set p a (annotate r x)).bare = p.bare
  find?_of_bare {p q a x} (hbare : q.bare = p.bare) (h : find? p a = some x) :
    ∃ r, find? q a = some (annotate r x)
  summary_annotate (r x) : summary (annotate r x) = summary x
  equiv_annotate (r r' x y) : equiv (annotate r x) (annotate r' y) = equiv x y
  replacement_annotate (r x) : replacement (annotate r x) = r

namespace Mergeable

def blocks : Mergeable BlockId Block where
  defn := .block
  text := BlockId.text
  find? p b := p.blocks[b.index]?
  summary := Block.summary
  equiv := Block.alphaEquiv
  replacement := Block.replacement
  annotate r x := { x with replacement := r }
  set := Program.setBlock
  look b p := p.block b
  modify := Edit.modifyBlock
  pass := Pass.mergeBlocks
  look_eq_ok_iff := Program.block_eq_ok_iff
  modify_eq_ok_iff := Edit.modifyBlock_eq_ok_iff
  pass_nil _ := rfl
  pass_cons _ _ _ := by
    rw [Pass.mergeBlocks]
    refine bind_congr fun x => bind_congr fun s => ?_
    dsimp only
    split <;> rename_i h <;> simp only [h]
  find?_set := Program.getElem?_setBlock
  bare_set {p b x} h r := by
    have hblocks := map_setIfInBounds_of_eq (f := Block.bare) (y := { x with replacement := r }) h
      rfl
    simp only [Program.bare, Program.setBlock, hblocks]
  find?_of_bare {p q b x} hbare h := by
    have hb := congrArg (fun r : Program => r.blocks[b.index]?) hbare
    simp only [Program.bare, Array.getElem?_map, h, Option.map_some, Option.map_eq_some_iff] at hb
    obtain ⟨⟨params, code, notes, origin, derived, replacement⟩, hy, hbare⟩ := hb
    cases hbare
    exact ⟨_, hy⟩
  summary_annotate _ _ := rfl
  equiv_annotate _ _ _ _ := rfl
  replacement_annotate _ _ := rfl

def closures : Mergeable ClosureId Closure where
  defn := .closure
  text := ClosureId.text
  find? p k := p.closures[k.index]?
  summary := Closure.summary
  equiv := Closure.alphaEquiv
  replacement := Closure.replacement
  annotate r x := { x with replacement := r }
  set := Program.setClosure
  look k p := p.closure k
  modify := Edit.modifyClosure
  pass := Pass.mergeClosures
  look_eq_ok_iff := Program.closure_eq_ok_iff
  modify_eq_ok_iff := Edit.modifyClosure_eq_ok_iff
  pass_nil _ := rfl
  pass_cons _ _ _ := by
    rw [Pass.mergeClosures]
    refine bind_congr fun x => bind_congr fun s => ?_
    dsimp only
    split <;> rename_i h <;> simp only [h]
  find?_set := Program.getElem?_setClosure
  bare_set {p k x} h r := by
    have hclosures := map_setIfInBounds_of_eq (f := Closure.bare) (y := { x with replacement := r })
      h rfl
    simp only [Program.bare, Program.setClosure, hclosures]
  find?_of_bare {p q k x} hbare h := by
    have hk := congrArg (fun r : Program => r.closures[k.index]?) hbare
    simp only [Program.bare, Array.getElem?_map, h, Option.map_some, Option.map_eq_some_iff] at hk
    obtain ⟨⟨stored, params, tail, notes, origin, derived, replacement⟩, hy, hbare⟩ := hk
    cases hbare
    exact ⟨_, hy⟩
  summary_annotate _ _ := rfl
  equiv_annotate _ _ _ _ := rfl
  replacement_annotate _ _ := rfl

variable {ι δ : Type} [DecidableEq ι] (M : Mergeable ι δ) {p q : Program}

/-- What the definition is noted to be merged into. -/
def note (p : Program) (a : ι) : Option ι := (M.find? p a).bind M.replacement

/-- Both definitions are there, and they are equivalent. -/
def Same (p : Program) (a b : ι) : Prop :=
  ∃ x y, M.find? p a = some x ∧ M.find? p b = some y ∧ M.equiv x y = true

/-- The kept definition that a definition joins, if it joins one. -/
def join? (p : Program) (groups : Groups ι) (a : ι) (x : δ) : Option ι :=
  if p.isEntrypoint (M.defn a) then none else
    groups.find (M.summary x) fun other => (M.find? p other).any (M.equiv · x)

/-- What is left behind when one definition joins another. -/
def joined (s : Workbench) (a c : ι) (x : δ) : Workbench where
  program := M.set s.program a (M.annotate (some c) x)
  current := some (M.defn a)
  log := s.log.push ⟨some (M.defn a), s!"{M.text a} is a copy of {M.text c}"⟩
  count := s.count + 1

/-- What is left behind when a definition is kept. -/
def kept (s : Workbench) (a : ι) (x : δ) : Workbench :=
  { s with program := M.set s.program a (M.annotate none x) }

variable {M} {a : ι} {as : List ι} {groups : Groups ι} {s s' : Workbench} {r : Bool}

theorem note_set {x : δ} (h : M.find? p a = some x) (r : Option ι) :
    M.note (M.set p a (M.annotate r x)) = Function.update (M.note p) a r := by
  funext b
  rw [note, M.find?_set h]
  by_cases hb : b = a
  · subst hb
    rw [if_pos rfl, Option.bind_some, M.replacement_annotate, Function.update_self]
  · rw [if_neg hb, Function.update_of_ne hb, note]

theorem Same.of_bare (h : q.bare = p.bare) {a b : ι} (hab : M.Same p a b) : M.Same q a b := by
  obtain ⟨x, y, hx, hy, hxy⟩ := hab
  obtain ⟨r, hx⟩ := M.find?_of_bare h hx
  obtain ⟨r', hy⟩ := M.find?_of_bare h hy
  exact ⟨_, _, hx, hy, by rwa [M.equiv_annotate]⟩

theorem same_of_bare (h : q.bare = p.bare) : M.Same q = M.Same p :=
  funext fun _ => funext fun _ => propext ⟨.of_bare h.symm, .of_bare h⟩

theorem look_eq {x : δ} (hx : M.find? s.program a = some x) : Pass.look (M.look a) s = .ok x s :=
  Pass.look_eq_ok_iff.mpr ⟨M.look_eq_ok_iff.mpr hx, rfl⟩

theorem annotate_eq {x : δ} (hx : M.find? s.program a = some x) (r : Option ι) :
    Pass.edit (M.modify a (M.annotate r)) s =
      .ok () { s with program := M.set s.program a (M.annotate r x) } :=
  Pass.edit_eq_ok_iff.mpr ⟨_, M.modify_eq_ok_iff.mpr ⟨x, hx, rfl⟩, rfl⟩

theorem pass_cons_of_join {x : δ} {c : ι} (hx : M.find? s.program a = some x)
    (hc : M.join? s.program groups a x = some c) :
    M.pass (a :: as) groups s = (do let _ ← M.pass as groups; return true : Pass Bool)
      (M.joined s a c x) := by
  unfold join? at hc
  rw [M.pass_cons]
  simp only [bind, EStateM.bind, look_eq hx, get, getThe, MonadStateOf.get, EStateM.get, hc,
    annotate_eq hx]
  rfl

theorem pass_cons_of_keep {x : δ} (hx : M.find? s.program a = some x)
    (hnone : M.join? s.program groups a x = none) :
    M.pass (a :: as) groups s = M.pass as (groups ++ [(M.summary x, a)]) (M.kept s a x) := by
  unfold join? at hnone
  rw [M.pass_cons]
  simp only [bind, EStateM.bind, look_eq hx, get, getThe, MonadStateOf.get, EStateM.get, hnone,
    annotate_eq hx]
  rfl

theorem pass_cons_of_missing (hx : M.find? s.program a = none) (as : List ι) (groups : Groups ι) :
    ∃ e, M.pass (a :: as) groups s = .error e s := by
  cases hlook : M.look a s.program with
  | ok x => cases hx.symm.trans (M.look_eq_ok_iff.mp hlook)
  | error f =>
    refine ⟨.fault f, ?_⟩
    simp only [M.pass_cons, bind, EStateM.bind, Pass.look, Pass.edit, Edit.read, hlook]

theorem mem_of_join? {x : δ} {c : ι} (h : M.join? p groups a x = some c) :
    p.isEntrypoint (M.defn a) = false ∧ c ∈ groups.map Prod.snd ∧
      (M.find? p c).any (M.equiv · x) = true := by
  unfold join? at h
  split at h
  · cases h
  · exact ⟨Bool.eq_false_iff.mpr ‹_›, Groups.find_eq_some h⟩

theorem course {γ : Type} {f : Program → γ} (hf : ∀ p a x, f (M.set p a x) = f p)
    (h : M.pass as groups s = .ok r s') :
    s'.program.bare = s.program.bare ∧ f s'.program = f s.program ∧
      Course (M.Same s.program) (fun a => s.program.isEntrypoint (M.defn a) = false) as
        (groups.map Prod.snd) (M.note s.program) (M.note s'.program) r := by
  induction as generalizing groups s r with
  | nil =>
    rw [M.pass_nil, pure_ok_iff] at h
    rw [h.1, h.2]
    exact ⟨rfl, rfl, .nil⟩
  | cons a as ih =>
    cases hx : M.find? s.program a with
    | none =>
      obtain ⟨e, he⟩ := M.pass_cons_of_missing hx as groups
      cases he.symm.trans h
    | some x =>
    have hbare (r : Option ι) := M.bare_set hx r
    cases hc : M.join? s.program groups a x with
    | some c =>
      rw [pass_cons_of_join hx hc] at h
      simp only [bind_ok_iff, pure_ok_iff] at h
      obtain ⟨r', _, h, rfl, rfl⟩ := h
      obtain ⟨hbare', hf', hcourse⟩ := ih h
      rw [joined, note_set hx, same_of_bare (hbare _), Program.isEntrypoint_of_bare
        (hbare _)] at hcourse
      obtain ⟨hentry, hmem, hsame⟩ := mem_of_join? hc
      obtain ⟨other, hother, hα⟩ := (Option.any_eq_true ..).mp hsame
      exact ⟨hbare'.trans (hbare _), hf'.trans (hf ..),
        .join hentry hmem ⟨other, x, hother, hx, hα⟩ hcourse⟩
    | none =>
      rw [pass_cons_of_keep hx hc] at h
      obtain ⟨hbare', hf', hcourse⟩ := ih h
      rw [kept, note_set hx, same_of_bare (hbare _), Program.isEntrypoint_of_bare (hbare _),
        List.map_append] at hcourse
      exact ⟨hbare'.trans (hbare _), hf'.trans (hf ..), .keep hcourse⟩

end Mergeable

end MonadicIR
