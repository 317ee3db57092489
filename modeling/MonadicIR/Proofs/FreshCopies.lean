import MonadicIR.Scope
import MonadicIR.Proofs.Nameless
import MonadicIR.Proofs.Renaming

namespace MonadicIR

open List

namespace Temp

variable {bound : List Temp} {t : Temp}

theorem number_lt_iff : t.number bound < bound.length ↔ t ∈ bound := by
  induction bound with
  | nil => simp [number]
  | cons x bound ih =>
    by_cases h : t = x
    · simp [number, h]
    · simp [number, h, ih]

theorem number_of_notMem (h : t ∉ bound) : t.number bound = t.index + bound.length := by
  induction bound with
  | nil => rfl
  | cons x bound ih =>
    obtain ⟨hx, hbound⟩ := not_or.mp (mt mem_cons.mpr h)
    rw [number, if_neg hx, ih hbound, length_cons, Nat.add_assoc]

/-- The variable with this number, if it is outside of the bound ones. -/
def outer? (depth : Nat) (t : Temp) : Option Temp :=
  if depth ≤ t.index then some ⟨t.index - depth⟩ else none

theorem outer?_number : outer? bound.length ⟨t.number bound⟩ = if t ∈ bound then none else
    some t := by
  split
  · rename_i h
    exact if_neg (Nat.not_le.mpr (number_lt_iff.mpr h))
  · rename_i h
    rw [outer?, if_pos (Nat.not_lt.mp (mt number_lt_iff.mp h)), number_of_notMem h,
      Nat.add_sub_cancel]

end Temp

theorem Tail.atoms_nameless (t : Tail) (bound : List Temp) :
    (t.nameless bound).atoms = t.atoms.map (Atom.nameless bound) := by
  cases t <;> rfl

theorem Alts.atoms_nameless (alts : Alts) (bound : List Temp) :
    (alts.nameless bound).calls.flatMap Call.args =
      (alts.calls.flatMap Call.args).map (Atom.nameless bound) := by
  obtain ⟨arms, default⟩ := alts
  cases default <;>
    simp [calls, nameless, Arm.nameless, Call.nameless, flatMap_map, map_flatMap]

/-- The reads that lead past all variables bound around them, by what a nameless form shows. -/
def outerReads (as : List Atom) (depth : Nat) :
    List Temp := (tempsOf as).filterMap (Temp.outer? depth)

theorem outerReads_nameless (as : List Atom) {bound scope : List Temp}
    (h : ∀ t, t ∈ scope ↔ t ∈ bound) : outerReads (as.map (Atom.nameless bound)) bound.length =
      (tempsOf as).filter (!scope.contains ·) := by
  have hatom (a : Atom) : ((a.nameless bound).temp?).bind (Temp.outer? bound.length) =
      a.temp?.bind fun t => if t ∈ bound then none else some t := by
    cases a with
    | temp t => exact Temp.outer?_number
    | word | flag | top | external => rfl
  have hfilter : (fun t => if t ∈ bound then none else some t) =
      Option.guard fun t : Temp => !scope.contains t := by
    funext t
    by_cases ht : t ∈ bound <;> simp [Option.guard, h, ht]
  rw [outerReads, tempsOf, filterMap_filterMap, filterMap_map]
  simp only [Function.comp_def, hatom]
  rw [← filterMap_filterMap, hfilter, filterMap_eq_filter]
  rfl

namespace Code

def outerReads : Code → Nat → List Temp
  | bind vars tail rest, depth =>
    MonadicIR.outerReads tail.atoms depth ++ rest.outerReads (depth + vars.length)
  | assert a _ rest, depth => MonadicIR.outerReads [a] depth ++ rest.outerReads depth
  | done t, depth => MonadicIR.outerReads t.atoms depth
  | branch test yes no, depth => MonadicIR.outerReads (branch test yes no).atoms depth
  | switch a alts, depth => MonadicIR.outerReads (switch a alts).atoms depth

theorem outerReads_nameless (code : Code) {bound scope : List Temp}
    (h : ∀ t, t ∈ scope ↔ t ∈ bound) :
    (code.nameless bound).outerReads bound.length = code.openReads scope := by
  induction code generalizing bound scope with
  | done t =>
    rw [nameless, outerReads, Tail.atoms_nameless, MonadicIR.outerReads_nameless _ h]
    rfl
  | bind vars t rest ih =>
    have hgrow : ∀ x, x ∈ scope ++ vars ↔ x ∈ vars.reverse ++ bound := fun x => by
      simp [h, or_comm]
    have hrest := ih hgrow
    rw [length_append, length_reverse, Nat.add_comm] at hrest
    rw [nameless, outerReads, length_map, hrest, Tail.atoms_nameless,
      MonadicIR.outerReads_nameless _ h]
    rfl
  | assert a ctor rest ih =>
    have hatom := MonadicIR.outerReads_nameless [a] h
    have htemps : tempsOf [a] = a.temp?.toList := by cases a <;> rfl
    rw [map_singleton, htemps] at hatom
    rw [nameless, outerReads, ih h, hatom]
    rfl
  | branch test yes no =>
    refine Eq.trans ?_ (MonadicIR.outerReads_nameless (branch test yes no).atoms h)
    simp only [nameless, outerReads, atoms, Call.nameless, map_cons, map_append]
  | switch a alts =>
    refine Eq.trans ?_ (MonadicIR.outerReads_nameless (switch a alts).atoms h)
    simp only [nameless, outerReads, atoms, Alts.atoms_nameless, map_cons]

end Code

/-- The variables that the body reads and that are neither parameters nor bound by it. -/
def Block.freeTemps (b : Block) : List Temp := distinct (b.code.openReads b.params)

theorem Block.freeTemps_eq_of_nameless {b c : Block} (h : b.nameless = c.nameless) :
    b.freeTemps = c.freeTemps := by
  obtain ⟨hparams, hcode⟩ := Prod.mk.inj h
  have hfree (b : Block) :
      b.code.openReads b.params = (b.code.nameless b.params.reverse).outerReads
        b.params.length := by
    rw [← length_reverse, Code.outerReads_nameless b.code fun t => mem_reverse.symm]
  rw [freeTemps, freeTemps, hfree, hfree, hparams, hcode]

namespace Subst

variable {s : Subst} {n : Nat} {left right : List Temp} {m : Temps}

/-- Every variable below `n` is renamed to one below `k` that has the same number among the
variables bound on the right as it has among those on the left, and only the wildcard to the
wildcard. -/
def Renumbers (s : Subst) (n k : Nat) (left right : List Temp) : Prop :=
  ∀ t : Temp, t.index < n → ∃ u : Temp, s.apply (.temp t) = .temp u ∧ u.index < k ∧
    u.isWildcard = t.isWildcard ∧ u.number right = t.number left

theorem Renumbers.empty (n : Nat) : Renumbers {} n n [] [] := fun t ht =>
  ⟨t, apply_empty _, ht, rfl, rfl⟩

theorem Renumbers.atom (h : s.Renumbers n k left right) {a : Atom}
    (ha : ∀ t, a.temp? = some t → t.index < n) :
    (s.apply a).nameless right = a.nameless left := by
  cases a with
  | temp t =>
    obtain ⟨u, hu, -, -, hnumber⟩ := h t (ha t rfl)
    rw [hu, Atom.nameless, Atom.nameless, hnumber]
  | word | flag | top | external => rfl

theorem eq_wildcard {t : Temp} (h : t.isWildcard = true) : t = .wildcard := by
  obtain ⟨i⟩ := t
  simpa [Temp.isWildcard, Temp.wildcard] using h

theorem Renumbers.freshLike {t : Temp} (h : s.Renumbers n m.size left right) (ht : t.index < n)
    (hn : n ≤ m.size) :
    (s.extend t (.temp (m.freshLike t).1)).Renumbers n (m.freshLike t).2.size (t :: left)
      ((m.freshLike t).1 :: right) := by
  intro x hx
  obtain ⟨u, hu, hlt, hwild, hnumber⟩ := h x hx
  unfold Temps.freshLike
  split
  · rename_i hw
    obtain rfl := eq_wildcard hw
    have hsame : u = .wildcard ↔ x = .wildcard := by
      constructor
      · rintro rfl
        exact eq_wildcard (hwild ▸ rfl)
      · rintro rfl
        exact eq_wildcard hwild
    refine ⟨u, hu, hlt, hwild, ?_⟩
    simp only [Temp.number, hsame, hnumber]
  · rename_i hw
    have hpos : m.types.size ≠ 0 := by
      unfold Temps.size at hn
      omega
    have hnew : Temp.isWildcard ⟨m.types.size⟩ = false := beq_eq_false_iff_ne.mpr hpos
    by_cases hx' : x = t
    · subst x
      refine ⟨⟨m.types.size⟩, apply_extend_self (by simpa using hw), ?_, ?_, ?_⟩
      · simp [Temps.freshTyped, Temps.size]
      · rw [hnew]
        simpa using hw
      · simp [Temps.freshTyped, Temp.number]
    · refine ⟨u, ?_, ?_, hwild, ?_⟩
      · simpa [apply, lookup_extend, Ne.symm hx'] using hu
      · simp only [Temps.freshTyped, Temps.size, Array.size_push] at hlt ⊢
        omega
      · have hne : u ≠ ⟨m.types.size⟩ := by
          rintro rfl
          exact Nat.lt_irrefl _ hlt
        simp only [Temps.freshTyped, Temp.number, if_neg hne, if_neg hx', hnumber]

theorem Renumbers.freshLikeAll {ts : List Temp} (h : s.Renumbers n m.size left right)
    (hts : ∀ t ∈ ts, t.index < n) (hn : n ≤ m.size) :
    (s.renameAll ts (m.freshLikeAll ts).1).Renumbers n (m.freshLikeAll ts).2.size
      (ts.reverse ++ left) ((m.freshLikeAll ts).1.reverse ++ right) := by
  induction ts generalizing s m left right with
  | nil => exact h
  | cons t ts ih =>
    obtain ⟨ht, hts⟩ := forall_mem_cons.mp hts
    have hn' : n ≤ (m.freshLike t).2.size := le_trans hn (m.freshLikeAll_fresh [t]).le
    have := ih (h.freshLike ht hn) hts hn'
    simp only [reverse_cons, append_assoc, Temps.freshLikeAll]
    exact this

theorem rename_freshLikeAll (s : Subst) (m : Temps) (ts : List Temp) :
    s.rename ts (m.freshLikeAll ts).1 = .ok (s.renameAll ts (m.freshLikeAll ts).1) := by
  rw [rename, bind, length_map, if_pos (m.freshLikeAll_fresh ts).length_eq.symm]
  rfl

end Subst

section Copies

variable {s : Subst} {n k : Nat} {left right : List Temp}

theorem Subst.Renumbers.atoms (h : s.Renumbers n k left right) {as : List Atom}
    (has : ∀ t ∈ tempsOf as, t.index < n) :
    (as.map s.apply).map (Atom.nameless right) = as.map (Atom.nameless left) := by
  rw [map_map]
  exact map_congr_left fun a ha => h.atom fun t ht =>
    has t (mem_filterMap.mpr ⟨a, ha, ht⟩)

theorem Subst.Renumbers.call (h : s.Renumbers n k left right) {c : Call}
    (hc : ∀ t ∈ tempsOf c.args, t.index < n) :
    (c.apply s).nameless right = c.nameless left := by
  rw [Call.nameless, Call.nameless, Call.apply, Subst.applyAll, h.atoms hc]

theorem Subst.Renumbers.tail (h : s.Renumbers n k left right) {t : Tail}
    (ht : ∀ x ∈ tempsOf t.atoms, x.index < n) :
    (t.apply s).nameless right = t.nameless left := by
  have hatoms := h.atoms ht
  cases t <;> simpa [Tail.apply, Tail.nameless, Tail.mapAtoms, Tail.atoms,
    Call.nameless] using hatoms

theorem Subst.Renumbers.alts (h : s.Renumbers n k left right) {alts : Alts}
    (halts : ∀ t ∈ tempsOf (alts.calls.flatMap Call.args), t.index < n) :
    (alts.mapCalls (Call.apply s)).nameless right = alts.nameless left := by
  have hcall (c : Call) (hc : c ∈ alts.calls) : (c.apply s).nameless right = c.nameless left := by
    refine h.call fun t ht => halts t ?_
    obtain ⟨a, ha, hat⟩ := mem_filterMap.mp ht
    exact mem_filterMap.mpr ⟨a, mem_flatMap.mpr ⟨c, hc, ha⟩, hat⟩
  obtain ⟨arms, default⟩ := alts
  simp only [Alts.calls, forall_mem_append, forall_mem_map] at hcall
  simp only [Alts.nameless, Alts.mapCalls, map_map, Option.map_map, Alts.mk.injEq]
  constructor
  · refine map_congr_left fun arm harm => ?_
    simp only [Function.comp_apply, Arm.nameless, hcall.1 arm harm]
  · refine Option.map_congr fun c hc => hcall.2 c ?_
    exact Option.mem_toList.mpr hc

namespace Code

def temps (code : Code) : List Temp := code.boundTemps ++ tempsOf code.atoms

theorem nameless_copyFresh (code : Code) {m : Temps} (h : s.Renumbers n m.size left right)
    (hn : n ≤ m.size) (hcode : ∀ t ∈ code.temps, t.index < n) :
    (code.copyFresh m s).1.nameless right = code.nameless left := by
  induction code generalizing m s left right with
  | done t => exact congrArg done (h.tail hcode)
  | bind vars t rest ih =>
    simp only [temps, boundTemps, atoms, tempsOf, filterMap_append, forall_mem_append]
      at hcode
    obtain ⟨⟨hvars, hbound⟩, ht, hatoms⟩ := hcode
    have hrest := ih (h.freshLikeAll hvars hn) (le_trans hn (m.freshLikeAll_fresh vars).le)
      (forall_mem_append.mpr ⟨hbound, hatoms⟩)
    have hlen : (m.freshLikeAll vars).1.map (fun _ => Temp.wildcard) =
        vars.map fun _ => Temp.wildcard := by
      simp [map_const', (m.freshLikeAll_fresh vars).length_eq]
    simp only [copyFresh, nameless, h.tail ht, hlen, hrest]
  | assert a ctor rest ih =>
    obtain ⟨hbound, hatoms⟩ := forall_mem_append.mp hcode
    have ha : ∀ t, a.temp? = some t → t.index < n := fun t ht =>
      hatoms t (mem_filterMap.mpr ⟨a, .head .., ht⟩)
    have hrest : ∀ t ∈ rest.temps, t.index < n := forall_mem_append.mpr ⟨hbound, fun t ht =>
      hatoms t (filterMap_subset _ (subset_cons_self a _) ht)⟩
    simp only [copyFresh, nameless, h.atom ha, ih h hn hrest]
  | branch test yes no =>
    have hsub (as : List Atom) (has : as ⊆ (branch test yes no).atoms) :
        ∀ t ∈ tempsOf as, t.index < n := fun t ht => hcode t (filterMap_subset _ has ht)
    simp only [copyFresh, nameless, h.call (hsub yes.args (by simp [atoms])),
      h.call (hsub no.args (by simp [atoms])), h.atom fun t ht => hcode t
        (mem_filterMap.mpr ⟨test, .head .., ht⟩)]
  | switch a alts =>
    have ha : ∀ t, a.temp? = some t → t.index < n := fun t ht =>
      hcode t (mem_filterMap.mpr ⟨a, .head .., ht⟩)
    have halts : ∀ t ∈ tempsOf (alts.calls.flatMap Call.args), t.index < n := fun t ht =>
      hcode t (filterMap_subset _ (subset_cons_self a _) ht)
    simp only [copyFresh, nameless, h.atom ha, h.alts halts]

end Code

end Copies

namespace Temps

variable {m m' : Temps} {t : Temp} {ts : List Temp}

/-- The variables of the first table are in the second, with the same types. -/
structure Extends (m m' : Temps) : Prop where
  size : m.size ≤ m'.size
  ty : ∀ t : Temp, t.index < m.size → m'.ty t = m.ty t

theorem Extends.refl (m : Temps) : m.Extends m := ⟨le_rfl, fun _ _ => rfl⟩

theorem Extends.trans {m'' : Temps} (h : m.Extends m') (h' : m'.Extends m'') : m.Extends m'' :=
  ⟨le_trans h.size h'.size, fun t ht =>
    (h'.ty t (lt_of_lt_of_le ht h.size)).trans (h.ty t ht)⟩

theorem Extends.types (h : m.Extends m') (hts : ∀ t ∈ ts, t.index < m.size) :
    ts.map m'.ty = ts.map m.ty :=
  map_congr_left fun t ht => h.ty t (hts t ht)

theorem extends_freshTyped (m : Temps) (ty : Option Ty) : m.Extends (m.freshTyped ty).2 := by
  refine ⟨by simp [freshTyped, size], fun t ht => ?_⟩
  unfold size at ht
  simp only [Temps.ty, freshTyped, Array.getElem?_push, if_neg (Nat.ne_of_lt ht)]

theorem freshLike_spec (ht : t.index < m.size) : m.Extends (m.freshLike t).2 ∧
    (m.freshLike t).1.index < (m.freshLike t).2.size ∧
      (m.freshLike t).2.ty (m.freshLike t).1 = m.ty t := by
  unfold freshLike
  split
  · exact ⟨.refl m, ht, rfl⟩
  · refine ⟨extends_freshTyped m _, ?_, ?_⟩
    · simp [freshTyped, size]
    · simp [freshTyped, Temps.ty]

theorem freshLikeAll_spec (hts : ∀ t ∈ ts, t.index < m.size) :
    m.Extends (m.freshLikeAll ts).2 ∧
      (∀ u ∈ (m.freshLikeAll ts).1, u.index < (m.freshLikeAll ts).2.size) ∧
      (m.freshLikeAll ts).1.map (m.freshLikeAll ts).2.ty = ts.map m.ty := by
  induction ts generalizing m with
  | nil => exact ⟨.refl m, fun _ hu => absurd hu not_mem_nil, rfl⟩
  | cons t ts ih =>
    obtain ⟨ht, hts⟩ := forall_mem_cons.mp hts
    obtain ⟨hfirst, hlt, hty⟩ := freshLike_spec ht
    obtain ⟨hrest, hnew, htypes⟩ := ih fun x hx => lt_of_lt_of_le (hts x hx) hfirst.size
    refine ⟨hfirst.trans hrest,
      forall_mem_cons.mpr ⟨lt_of_lt_of_le hlt hrest.size, hnew⟩, ?_⟩
    simp only [freshLikeAll, map_cons, htypes, hfirst.types hts, hrest.ty _ hlt, hty]

end Temps

namespace Code

theorem fresh_copyFresh (code : Code) (m : Temps) (s : Subst) :
    Fresh m.size code.boundTemps (code.copyFresh m s).1.boundTemps
      (code.copyFresh m s).2.1.size := by
  induction code generalizing m s with
  | bind vars t rest ih => exact (m.freshLikeAll_fresh vars).append (ih _ _)
  | assert a ctor rest ih => exact ih m s
  | done | branch | switch => exact .nil

theorem types_copyFresh (code : Code) {m : Temps} (s : Subst)
    (hcode : ∀ t ∈ code.boundTemps, t.index < m.size) :
    m.Extends (code.copyFresh m s).2.1 ∧
      (code.copyFresh m s).1.boundTemps.map (code.copyFresh m s).2.1.ty =
        code.boundTemps.map m.ty := by
  induction code generalizing m s with
  | bind vars t rest ih =>
    obtain ⟨hvars, hbound⟩ := forall_mem_append.mp hcode
    obtain ⟨hfirst, hnew, htypes⟩ := Temps.freshLikeAll_spec hvars
    obtain ⟨hrest, hrestTypes⟩ := ih (s.renameAll vars (m.freshLikeAll vars).1)
      fun x hx => lt_of_lt_of_le (hbound x hx) hfirst.size
    refine ⟨hfirst.trans hrest, ?_⟩
    simp only [copyFresh, boundTemps, map_append, hrestTypes, hfirst.types hbound,
      hrest.types hnew, htypes]
  | assert a ctor rest ih => exact ih s hcode
  | done | branch | switch => exact ⟨.refl m, rfl⟩

end Code

namespace Block

/-- All variables of a block: its parameters and those that its body binds or reads. -/
def temps (b : Block) : List Temp := b.params ++ b.code.temps

/-- The variables that a block names: its parameters and those that its body binds. -/
def binders (b : Block) : List Temp := b.params ++ b.code.boundTemps

/-- A block with new parameters and new bound variables, and the table with them. -/
def freshCopy (b : Block) (m : Temps) : Except Fault (Block × Temps) := do
  let (params, m) := m.freshLikeAll b.params
  let s ← ({} : Subst).rename b.params params
  let (code, m, _) := b.code.copyFresh m s
  return ({ params, code }, m)

theorem freshCopy_eq (b : Block) (m : Temps) : b.freshCopy m =
    let ps := m.freshLikeAll b.params
    let copy := b.code.copyFresh ps.2 (({} : Subst).renameAll b.params ps.1)
    .ok ({ params := ps.1, code := copy.1 }, copy.2.1) := by
  unfold freshCopy
  dsimp only
  rw [Subst.rename_freshLikeAll]
  rfl

/-- A copy can always be made. It is equivalent to the block, it names new variables only, each of
them once and with the type of the one it stands for, and its free variables are those of the block. -/
theorem freshCopy_disjoint (b : Block) (m : Temps) (h : ∀ t ∈ b.temps, t.index < m.size) :
    ∃ c m', b.freshCopy m = .ok (c, m') ∧ b.alphaEquiv c = true ∧
      (named c.binders).Nodup ∧
      (∀ t ∈ named c.binders, m.size ≤ t.index ∧ t.index < m'.size) ∧
      c.binders.map m'.ty = b.binders.map m.ty ∧ c.freeTemps = b.freeTemps := by
  obtain ⟨hparams, hcode⟩ := forall_mem_append.mp h
  obtain ⟨hbound, -⟩ := forall_mem_append.mp hcode
  obtain ⟨hfirst, hnew, htypes⟩ := Temps.freshLikeAll_spec hparams
  have hparamsFresh := m.freshLikeAll_fresh b.params
  have hrenumbers := (Subst.Renumbers.empty m.size).freshLikeAll hparams le_rfl
  obtain ⟨hrest, hboundTypes⟩ := b.code.types_copyFresh
    (({} : Subst).renameAll b.params (m.freshLikeAll b.params).1)
    fun t ht => lt_of_lt_of_le (hbound t ht) hfirst.size
  refine ⟨_, _, b.freshCopy_eq m, ?_⟩
  generalize hps : m.freshLikeAll b.params = ps at *
  generalize hcopy : b.code.copyFresh ps.2 (({} : Subst).renameAll b.params ps.1) = copy at *
  have hnames : b.nameless = Block.nameless { params := ps.1, code := copy.1 } := by
    have hform := b.code.nameless_copyFresh hrenumbers hfirst.size hcode
    rw [hcopy, append_nil, append_nil] at hform
    rw [nameless, nameless, hform, hparamsFresh.length_eq]
  have hfresh := hparamsFresh.append (b.code.fresh_copyFresh ps.2
    (({} : Subst).renameAll b.params ps.1))
  rw [hcopy] at hfresh
  refine ⟨alphaEquiv_iff_nameless.mpr hnames, hfresh.nodup, fun t => hfresh.bounds, ?_,
    (freeTemps_eq_of_nameless hnames).symm⟩
  simp only [binders, map_append, hboundTypes, hfirst.types hbound, hrest.types hnew, htypes]

/-- Lists a parameter twice, binds the other one anew, and has a free variable and wildcards. -/
def contorted : Block where
  params := [⟨1⟩, .wildcard, ⟨1⟩, ⟨2⟩]
  code := .bind [⟨2⟩, .wildcard] (.call ⟨⟨0⟩, [.temp ⟨1⟩, .temp ⟨2⟩]⟩) <|
    .bind [⟨2⟩] (.prim .add [.temp ⟨2⟩, .temp ⟨3⟩]) <|
    .branch (.temp ⟨2⟩) ⟨⟨0⟩, [.temp ⟨1⟩]⟩ ⟨⟨1⟩, [.temp ⟨3⟩]⟩

def roomy : Temps := ⟨#[none, some (.con "Word" []), none, some (.var 0)]⟩

theorem freshCopy_disjoint_contorted : (∀ t ∈ contorted.temps, t.index < roomy.size) ∧
    ∃ c m', contorted.freshCopy roomy = .ok (c, m') ∧ contorted.alphaEquiv c = true ∧
      (named c.binders).Nodup ∧
      (∀ t ∈ named c.binders, roomy.size ≤ t.index ∧ t.index < m'.size) ∧
      c.binders.map m'.ty = contorted.binders.map roomy.ty ∧ c.freeTemps = contorted.freeTemps :=
  have h : ∀ t ∈ contorted.temps, t.index < roomy.size := by decide
  ⟨h, freshCopy_disjoint contorted roomy h⟩

end Block

end MonadicIR
