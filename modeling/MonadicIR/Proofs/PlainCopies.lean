import MonadicIR.Specialise
import MonadicIR.Proofs.FreshCopies
import MonadicIR.Proofs.Passes
import MonadicIR.Proofs.Summaries

namespace MonadicIR

open List

inductive Definition where
  | block (b : Block)
  | closure (k : Closure)
  | top (t : TopLevel)
deriving DecidableEq, Repr

namespace Definition

def alphaEquiv : Definition → Definition → Bool
  | block b, block c => b.alphaEquiv c
  | closure k, closure l => k.alphaEquiv l
  | top t, top u => t.alphaEquiv u
  | _, _ => false

def summary : Definition → Word
  | block b => b.summary
  | closure k => k.summary
  | top t => t.summary

/-- The variables that the definition names: stored fields, parameters and those bound by its body. -/
def binders : Definition → List Temp
  | block b => b.binders
  | closure k => k.stored ++ k.params
  | top _ => []

/-- All variables of the definition, named or read. -/
def temps : Definition → List Temp
  | block b => b.temps
  | closure k => k.stored ++ k.params ++ k.tail.temps
  | top t => t.tail.temps

/-- The names of the values that a top-level defines, with their types. -/
def lhs : Definition → List TopName
  | block _ | closure _ => []
  | top t => t.lhs

theorem summary_eq_of_alphaEquiv {x y : Definition} (h : x.alphaEquiv y = true) :
    x.summary = y.summary := by
  cases x <;> cases y
  case block.block => exact Code.summary_of_alpha ((Bool.and_eq_true _ _).mp h).2
  case closure.closure => exact Tail.summary_of_alpha ((Bool.and_eq_true _ _).mp h).2
  case top.top => exact Tail.summary_of_alpha ((Bool.and_eq_true _ _).mp h).2
  all_goals cases h

end Definition

def Program.definition? (p : Program) : DefnId → Option Definition
  | .block b => (p.blocks[b.index]?).map .block
  | .closure k => (p.closures[k.index]?).map .closure
  | .top t => (p.tops[t.index]?).map .top

namespace Temps

variable {m m' : Temps} {ts us : List Temp}

/-- The second list has new variables for those of the first, each of them once and with the type of
the one it stands for. Only the wildcard stands for itself. -/
structure Replaces (m : Temps) (ts us : List Temp) (m' : Temps) : Prop where
  nodup : (named us).Nodup
  new : ∀ u ∈ named us, m.size ≤ u.index ∧ u.index < m'.size
  types : us.map m'.ty = ts.map m.ty
  wildcards : us.map Temp.isWildcard = ts.map Temp.isWildcard

theorem Replaces.nil (m : Temps) : m.Replaces [] [] m :=
  ⟨nodup_nil, fun _ hu => absurd hu not_mem_nil, rfl, rfl⟩

theorem isWildcard_freshLike {t : Temp} (ht : t.index < m.size) :
    (m.freshLike t).1.isWildcard = t.isWildcard := by
  unfold freshLike
  split
  · rfl
  · rename_i hnamed
    have hm : (m.types.size == 0) = false := beq_eq_false_iff_ne.mpr
      (Nat.ne_of_gt (Nat.zero_lt_of_lt ht))
    exact hm.trans (Bool.eq_false_iff.mpr hnamed).symm

theorem wildcards_freshLikeAll (hts : ∀ t ∈ ts, t.index < m.size) :
    (m.freshLikeAll ts).1.map Temp.isWildcard = ts.map Temp.isWildcard := by
  induction ts generalizing m with
  | nil => rfl
  | cons t ts ih =>
    obtain ⟨ht, hts⟩ := forall_mem_cons.mp hts
    have hrest := ih fun x hx => lt_of_lt_of_le (hts x hx) (freshLike_spec ht).1.size
    simp only [freshLikeAll, map_cons, isWildcard_freshLike ht, hrest]

theorem freshLikeAll_append (m : Temps) (ts us : List Temp) : m.freshLikeAll (ts ++ us) =
    ((m.freshLikeAll ts).1 ++ ((m.freshLikeAll ts).2.freshLikeAll us).1,
      ((m.freshLikeAll ts).2.freshLikeAll us).2) := by
  induction ts generalizing m with
  | nil => rfl
  | cons t ts ih => simp only [cons_append, freshLikeAll, ih]

end Temps

namespace Code

theorem wildcards_copyFresh (code : Code) {m : Temps} (s : Subst)
    (hcode : ∀ t ∈ code.boundTemps, t.index < m.size) :
    (code.copyFresh m s).1.boundTemps.map Temp.isWildcard = code.boundTemps.map
      Temp.isWildcard := by
  induction code generalizing m s with
  | bind vars t rest ih =>
    obtain ⟨hvars, hbound⟩ := forall_mem_append.mp hcode
    have hrest := ih (s.renameAll vars (m.freshLikeAll vars).1)
      fun x hx => lt_of_lt_of_le (hbound x hx) (m.freshLikeAll_fresh vars).le
    simp only [copyFresh, boundTemps, map_append, Temps.wildcards_freshLikeAll hvars, hrest]
  | assert a ctor rest ih => exact ih s hcode
  | done | branch | switch => rfl

theorem copyFresh_replaces (code : Code) (ps : List Temp) {m : Temps}
    (h : ∀ t ∈ ps ++ code.temps, t.index < m.size) {us : List Temp} {m1 m2 : Temps} {copy : Code}
    {s : Subst} (hps : m.freshLikeAll ps = (us, m1))
    (hcopy : code.copyFresh m1 (({} : Subst).renameAll ps us) = (copy, m2, s)) :
    m.Extends m2 ∧ m.Replaces (ps ++ code.boundTemps) (us ++ copy.boundTemps) m2 ∧
      copy.nameless us.reverse = code.nameless ps.reverse := by
  obtain ⟨hparams, hcode⟩ := forall_mem_append.mp h
  obtain ⟨hbound, -⟩ := forall_mem_append.mp hcode
  obtain ⟨hfirst, hnew, htypes⟩ := Temps.freshLikeAll_spec hparams
  have hbound' : ∀ t ∈ code.boundTemps, t.index < (m.freshLikeAll ps).2.size :=
    fun t ht => lt_of_lt_of_le (hbound t ht) hfirst.size
  obtain ⟨hrest, hboundTypes⟩ := code.types_copyFresh (({} : Subst).renameAll ps us) hbound'
  have hboundWild := code.wildcards_copyFresh (({} : Subst).renameAll ps us) hbound'
  have hwild := Temps.wildcards_freshLikeAll hparams
  have hform := code.nameless_copyFresh
    ((Subst.Renumbers.empty m.size).freshLikeAll hparams le_rfl) hfirst.size hcode
  have hfresh := (m.freshLikeAll_fresh ps).append (code.fresh_copyFresh (m.freshLikeAll ps).2
    (({} : Subst).renameAll ps us))
  rw [hps] at hfirst hnew htypes hrest hboundTypes hboundWild hwild hform hfresh
  rw [hcopy] at hrest hboundTypes hboundWild hform hfresh
  rw [append_nil, append_nil] at hform
  refine ⟨hfirst.trans hrest, ⟨hfresh.nodup, fun t => hfresh.bounds, ?_, ?_⟩, hform⟩
  · simp only [map_append, hboundTypes, hfirst.types hbound, hrest.types hnew, htypes]
  · rw [map_append, map_append, hboundWild, hwild]

end Code

/-- An equivalent definition with new variables. -/
structure Definition.Copies (x : Definition) (m : Temps) (y : Definition) (m' : Temps) : Prop where
  equivalent : x.alphaEquiv y = true
  summary : y.summary = x.summary
  binders : m.Replaces x.binders y.binders m'
  lhs : y.lhs = x.lhs

/-- The second program has one more definition. All others, the types and the rest are as before. -/
structure Program.Gains (p : Program) (d : DefnId) (x : Definition) (p' : Program) : Prop where
  new : p.definition? d = none
  definitions : ∀ e, p'.definition? e = if e = d then some x else p.definition? e
  temps : p.temps.Extends p'.temps
  datatypes : p'.datatypes = p.datatypes
  entrypoints : p'.entrypoints = p.entrypoints
  components : p'.components = p.components

namespace Program

variable (p : Program) {m : Temps} (h : p.temps.Extends m)

include h

theorem gains_addBlock (block : Block) :
    p.Gains (.block ⟨p.blocks.size⟩) (.block block)
    { p with temps := m, blocks := p.blocks.push block } := by
  refine ⟨by simp [definition?], fun e => ?_, h, rfl, rfl, rfl⟩
  rcases e with ⟨⟨i⟩⟩ | ⟨⟨i⟩⟩ | ⟨⟨i⟩⟩
  · by_cases hi : i = p.blocks.size <;> simp [definition?, Array.getElem?_push, hi]
  · simp [definition?]
  · simp [definition?]

theorem gains_addClosure (closure : Closure) : p.Gains (.closure ⟨p.closures.size⟩)
    (.closure closure) { p with temps := m, closures := p.closures.push closure } := by
  refine ⟨by simp [definition?], fun e => ?_, h, rfl, rfl, rfl⟩
  rcases e with ⟨⟨i⟩⟩ | ⟨⟨i⟩⟩ | ⟨⟨i⟩⟩
  · simp [definition?]
  · by_cases hi : i = p.closures.size <;> simp [definition?, Array.getElem?_push, hi]
  · simp [definition?]

theorem gains_addTop (top : TopLevel) :
    p.Gains (.top ⟨p.tops.size⟩) (.top top) { p with temps := m, tops := p.tops.push top } := by
  refine ⟨by simp [definition?], fun e => ?_, h, rfl, rfl, rfl⟩
  rcases e with ⟨⟨i⟩⟩ | ⟨⟨i⟩⟩ | ⟨⟨i⟩⟩
  · simp [definition?]
  · simp [definition?]
  · by_cases hi : i = p.tops.size <;> simp [definition?, Array.getElem?_push, hi]

end Program

namespace Redirection

theorem atom_plain (s : Subst) (a : Atom) : ({} : Redirection).atom s a = s.apply a := by
  unfold atom
  split <;> simp_all

theorem tail_plain (s : Subst) (t : Tail) : ({} : Redirection).tail s t = t.apply s := by
  have hatom : ({} : Redirection).atom s = s.apply := funext (atom_plain s)
  cases t <;> simp [tail, Tail.apply, Tail.mapAtoms, hatom]

theorem freshTemps_plain (ts : List Temp) (p : Program) : ({} : Redirection).freshTemps ts p =
    .ok (p.temps.freshLikeAll ts).1 { p with temps := (p.temps.freshLikeAll ts).2 } := by
  induction ts generalizing p with
  | nil => rfl
  | cons t ts ih =>
    have hrest (u : Temp) (m : Temps) : (do
        let us ← ({} : Redirection).freshTemps ts
        return u :: us : Edit (List Temp)) { p with temps := m } =
        .ok (u :: (m.freshLikeAll ts).1) { p with temps := (m.freshLikeAll ts).2 } :=
      bind_ok_iff.mpr ⟨_, _, ih { p with temps := m }, rfl⟩
    unfold freshTemps Temps.freshLikeAll Temps.freshLike
    split
    · exact hrest t p.temps
    · rw [Option.map_id_fun]
      exact hrest _ _

theorem code_plain (code : Code) (s : Subst) (p : Program) : ({} : Redirection).code code s p =
    .ok (code.copyFresh p.temps s).1 { p with temps := (code.copyFresh p.temps s).2.1 } := by
  have hatom : ({} : Redirection).atom s = s.apply := funext (atom_plain s)
  induction code generalizing s p with
  | done t => rw [code, tail_plain]; rfl
  | bind vars tail rest ih =>
    have hvars := freshTemps_plain vars p
    refine bind_ok_iff.mpr ⟨_, _, hvars, ?_⟩
    refine bind_ok_iff.mpr ⟨_, _, ih _ _ (funext (atom_plain _)), ?_⟩
    rw [tail_plain]
    rfl
  | assert a ctor rest ih =>
    refine bind_ok_iff.mpr ⟨_, _, ih s p hatom, ?_⟩
    rw [atom_plain]
    rfl
  | branch test yes no => rw [code, atom_plain]; rfl
  | switch a alts => rw [code, atom_plain]; rfl

end Redirection

namespace Edit

variable {p : Program}

theorem specialise_block_plain {b : BlockId} {block : Block} (hb : p.blocks[b.index]? = some block)
    (h : ∀ t ∈ block.temps, t.index < p.temps.size) : ∃ d y p', specialise {}
    (.block b) p = .ok d p' ∧
      (Definition.block block).Copies p.temps y p'.temps ∧ p.Gains d y p' := by
  let ps := p.temps.freshLikeAll block.params
  let copy := block.code.copyFresh ps.2 (({} : Subst).renameAll block.params ps.1)
  have hrun : specialise {} (.block b) p = .ok (.block ⟨p.blocks.size⟩)
      { p with temps := copy.2.1, blocks := p.blocks.push { params := ps.1, code := copy.1 } } := by
    refine bind_ok_iff.mpr ⟨block, p, by simp [Program.block_eq_ok_iff, hb], ?_⟩
    refine bind_ok_iff.mpr ⟨_, _, Redirection.freshTemps_plain block.params p, ?_⟩
    exact bind_ok_iff.mpr ⟨_, _, Redirection.code_plain _ _ _, rfl⟩
  obtain ⟨hgrows, hreplaces, hform⟩ := block.code.copyFresh_replaces block.params h rfl rfl
  have hlen := (p.temps.freshLikeAll_fresh block.params).length_eq
  have halpha : block.alphaEquiv { params := ps.1, code := copy.1 } = true :=
    Block.alphaEquiv_iff_nameless.mpr (Prod.ext hlen.symm hform.symm)
  exact ⟨_, .block { params := ps.1, code := copy.1 }, _, hrun,
    ⟨halpha, (Definition.summary_eq_of_alphaEquiv (x := .block block) (y := .block _) halpha).symm,
      hreplaces, rfl⟩, p.gains_addBlock hgrows _⟩

/-- A closure is copied as a body with its stored fields and parameters bound around it. -/
theorem specialise_closure_plain {k : ClosureId} {closure : Closure}
    (hk : p.closures[k.index]? = some closure)
    (h : ∀ t ∈ (Definition.closure closure).temps, t.index < p.temps.size) :
    ∃ d y p', specialise {} (.closure k) p = .ok d p' ∧
      (Definition.closure closure).Copies p.temps y p'.temps ∧ p.Gains d y p' := by
  let xs := p.temps.freshLikeAll closure.stored
  let ys := xs.2.freshLikeAll closure.params
  let s := (({} : Subst).renameAll closure.stored xs.1).renameAll closure.params ys.1
  have hrun : specialise {} (.closure k) p = .ok (.closure ⟨p.closures.size⟩)
      { p with
        temps := ys.2
        closures := p.closures.push { stored := xs.1, params := ys.1, tail := closure.tail.apply s }
          } := by
    refine bind_ok_iff.mpr ⟨closure, p, by simp [Program.closure_eq_ok_iff, hk], ?_⟩
    refine bind_ok_iff.mpr ⟨_, _, Redirection.freshTemps_plain closure.stored p, ?_⟩
    refine bind_ok_iff.mpr ⟨_, _, Redirection.freshTemps_plain closure.params _, ?_⟩
    rw [Redirection.tail_plain]
    rfl
  have hxs := (p.temps.freshLikeAll_fresh closure.stored).length_eq
  have hys := (xs.2.freshLikeAll_fresh closure.params).length_eq
  obtain ⟨hgrows, hreplaces, hform⟩ := (Code.done closure.tail).copyFresh_replaces
    (closure.stored ++ closure.params) h (p.temps.freshLikeAll_append _ _) rfl
  rw [Subst.renameAll_append _ hxs.symm, reverse_append, reverse_append] at hform
  simp only [Code.boundTemps, append_nil] at hreplaces
  have halpha : closure.alphaEquiv
      { stored := xs.1, params := ys.1, tail := closure.tail.apply s } = true :=
    Closure.alphaEquiv_iff_nameless.mpr
      (Prod.ext hxs.symm (Prod.ext hys.symm (Code.done.inj hform).symm))
  exact ⟨_, .closure { stored := xs.1, params := ys.1, tail := closure.tail.apply s }, _, hrun,
    ⟨halpha, (Definition.summary_eq_of_alphaEquiv (x := .closure closure)
      (y := .closure _) halpha).symm, hreplaces, rfl⟩, p.gains_addClosure hgrows _⟩

theorem specialise_top_plain {t : TopId} {top : TopLevel} (ht : p.tops[t.index]? = some top) :
    ∃ d y p', specialise {} (.top t) p = .ok d p' ∧
      (Definition.top top).Copies p.temps y p'.temps ∧ p.Gains d y p' := by
  have hrun : specialise {} (.top t) p = .ok (.top ⟨p.tops.size⟩)
      { p with tops := p.tops.push { lhs := top.lhs, tail := top.tail } } := by
    have htail : ({} : Redirection).tail {} top.tail = top.tail := by
      rw [Redirection.tail_plain, Tail.apply_empty]
    have hlhs : top.lhs.map (fun n => { n with ty := n.ty.map id }) = top.lhs := by simp
    refine bind_ok_iff.mpr ⟨top, p, by simp [Program.top_eq_ok_iff, ht], ?_⟩
    rw [htail, hlhs]
    rfl
  exact ⟨_, .top { lhs := top.lhs, tail := top.tail }, _, hrun,
    ⟨TopLevel.alphaEquiv_iff_nameless.mpr rfl, rfl, .nil _, rfl⟩, p.gains_addTop (.refl _) _⟩

/-- A definition whose variables are all in the table can be copied with nothing redirected. The
copy has a new name, is equivalent to its source and names new variables only, and nothing else
changes. -/
theorem specialise_plain {d : DefnId} {x : Definition} (hd : p.definition? d = some x)
    (h : ∀ t ∈ x.temps, t.index < p.temps.size) :
    ∃ d' y p', specialise {} d p = .ok d' p' ∧ x.Copies p.temps y p'.temps ∧ p.Gains d' y p' := by
  cases d with
  | block b =>
    obtain ⟨block, hb, rfl⟩ := Option.map_eq_some_iff.mp hd
    exact specialise_block_plain hb h
  | closure k =>
    obtain ⟨closure, hk, rfl⟩ := Option.map_eq_some_iff.mp hd
    exact specialise_closure_plain hk h
  | top t =>
    obtain ⟨top, ht, rfl⟩ := Option.map_eq_some_iff.mp hd
    exact specialise_top_plain ht

/-- The contorted block, and a closure that stores a variable twice and takes it as a parameter too. -/
def contortedProgram : Program where
  temps := Block.roomy
  blocks := #[Block.contorted]
  closures := #[{
    stored := [⟨1⟩, .wildcard, ⟨1⟩]
    params := [⟨1⟩, ⟨2⟩]
    tail := .enter (.temp ⟨1⟩) [.temp ⟨2⟩, .temp ⟨3⟩, .top ⟨⟨0⟩, 0⟩] }]
  tops := #[{ lhs := [⟨"x", some (.var 1)⟩], tail := .ret [.word 1] }]
  entrypoints := [.block ⟨0⟩]

theorem specialise_plain_contorted :
    contortedProgram.allDefns = [.block ⟨0⟩, .closure ⟨0⟩, .top ⟨0⟩] ∧
      ∀ d ∈ contortedProgram.allDefns, ∃ x d' y p', contortedProgram.definition? d = some x ∧
        (∀ t ∈ x.temps, t.index < contortedProgram.temps.size) ∧
        specialise {} d contortedProgram = .ok d' p' ∧ x.Copies contortedProgram.temps y p'.temps ∧
        contortedProgram.Gains d' y p' := by
  have hall : ∀ d ∈ contortedProgram.allDefns, (contortedProgram.definition? d).any
      (fun x => decide (∀ t ∈ x.temps, t.index < contortedProgram.temps.size)) = true := by decide
  refine ⟨by decide, fun d hd => ?_⟩
  obtain ⟨x, hx, htemps⟩ := (Option.any_eq_true ..).mp (hall d hd)
  obtain ⟨d', y, p', hcopy⟩ := specialise_plain hx (of_decide_eq_true htemps)
  exact ⟨x, d', y, p', hx, of_decide_eq_true htemps, hcopy⟩

end Edit

end MonadicIR
