import MonadicIR.Optimiser.Pipeline
import MonadicIR.Proofs.Throughout
import MonadicIR.Proofs.Tidying

namespace MonadicIR

open Program List Option

/-- What code may mention. A variable with a name may always be read. -/
structure Vocabulary where
  temp : Temp → Prop
  defn : DefnId → Prop
  named : ∀ t, t.isWildcard = false → temp t

/-- The block or closure that a tail itself refers to. -/
def Tail.head? : Tail → Option DefnId
  | call c => some (.block c.target)
  | closure k _ => some (.closure k)
  | _ => none

section Within

variable (V : Vocabulary)

def Atom.Within : Atom → Prop
  | temp t => V.temp t
  | top r => V.defn (.top r.top)
  | _ => True

def Call.Within (c : Call) : Prop := V.defn (.block c.target) ∧ ∀ a ∈ c.args, a.Within V

def Tail.Within (t : Tail) : Prop := (∀ a ∈ t.atoms, a.Within V) ∧ ∀ d, t.head? = some d → V.defn d

def Alts.Within (alts : Alts) : Prop := ∀ c ∈ alts.calls, c.Within V

def Code.Within : Code → Prop
  | done t => t.Within V
  | bind _ tail rest => tail.Within V ∧ rest.Within
  | assert a _ rest => a.Within V ∧ rest.Within
  | branch test yes no => test.Within V ∧ yes.Within V ∧ no.Within V
  | switch a alts => a.Within V ∧ alts.Within V

def Subst.Within (s : Subst) : Prop := ∀ p ∈ s.pairs, p.2.Within V

def Facts.Within (fs : Facts) : Prop :=
  ∀ i ∈ fs.items, V.temp i.1 ∧ ∀ t, i.2.tail? = some t → t.Within V

/-- A copy may be made for a constant, or for a closure that may be mentioned. -/
def ArgShape.Within : ArgShape → Prop
  | closure k => V.defn (.closure k)
  | value a => a.isConstant = true
  | _ => True

def Origin.Within : Origin → Prop
  | known shapes _ => ∀ s ∈ shapes, s.Within V
  | _ => True

end Within

namespace Vocabulary

/-- All variables that are still to be allocated may be read. -/
def Fresh (V : Vocabulary) (m : Temps) : Prop := ∀ t : Temp, m.size ≤ t.index → V.temp t

/-- With a definition, the vocabulary has all that its body mentions, and those of its copies that
were made for what may be mentioned. -/
structure Closed (V : Vocabulary) (p : Program) : Prop where
  body : ∀ {d : DefnId} {x : Outline}, V.defn d → p.outline? d = some x → x.body.Within V
  params : ∀ {d : DefnId} {x : Outline}, V.defn d → p.outline? d = some x → ∀ t ∈ x.params, V.temp t
  derived : ∀ {d e : DefnId} {x y : Outline}, V.defn d → p.outline? d = some x → e ∈ x.derived →
    p.outline? e = some y → y.origin.Within V → V.defn e

variable {V : Vocabulary} {p : Program}

theorem Closed.block (hV : V.Closed p) {b : BlockId} {block : Block} (hb : V.defn (.block b))
    (hblock : p.blocks[b.index]? = some block) : block.code.Within V :=
  hV.body hb (outline?_block hblock)

theorem Closed.closure (hV : V.Closed p) {k : ClosureId} {closure : Closure}
    (hk : V.defn (.closure k)) (hclosure : p.closures[k.index]? = some closure) :
    closure.tail.Within V ∧ ∀ t ∈ closure.params, V.temp t :=
  ⟨hV.body hk (outline?_closure hclosure), hV.params hk (outline?_closure hclosure)⟩

theorem Closed.top (hV : V.Closed p) {t : TopId} {top : TopLevel} (ht : V.defn (.top t))
    (htop : p.tops[t.index]? = some top) : top.tail.Within V :=
  hV.body ht (outline?_top htop)

end Vocabulary

section Mono

variable {V V' : Vocabulary} (hdefn : ∀ d, V.defn d → V'.defn d) (htemp : ∀ t, V.temp t → V'.temp t)

include hdefn htemp

theorem Atom.Within.mono {a : Atom} (h : a.Within V) : a.Within V' := by
  cases a with
  | temp t => exact htemp t h
  | top r => exact hdefn _ h
  | word _ | flag _ | external _ => trivial

theorem Call.Within.mono {c : Call} (h : c.Within V) : c.Within V' :=
  ⟨hdefn _ h.1, fun a ha => (h.2 a ha).mono hdefn htemp⟩

theorem Tail.Within.mono {t : Tail} (h : t.Within V) : t.Within V' :=
  ⟨fun a ha => (h.1 a ha).mono hdefn htemp, fun d hd => hdefn d (h.2 d hd)⟩

theorem Facts.Within.mono {fs : Facts} (h : fs.Within V) : fs.Within V' := fun i hi =>
  ⟨htemp _ (h i hi).1, fun t ht => ((h i hi).2 t ht).mono hdefn htemp⟩

theorem Subst.Within.mono {s : Subst} (h : s.Within V) : s.Within V' := fun q hq =>
  (h q hq).mono hdefn htemp

omit htemp in
theorem ArgShape.Within.mono {s : ArgShape} (h : s.Within V) : s.Within V' := by
  cases s with
  | closure k => exact hdefn _ h
  | value a => exact h
  | unknown | data _ | tag _ => trivial

end Mono

variable {V : Vocabulary} {p : Program}

theorem Atom.within_of_isConstant {a : Atom} (h : a.isConstant = true) : a.Within V := by
  cases a with
  | word _ | flag _ | external _ => trivial
  | temp _ | top _ => cases h

theorem Atom.Within.top {a : Atom} (h : a.Within V) {r : TopRef} (hr : a.top? = some r) :
    V.defn (.top r.top) := by
  cases a <;> simp_all [Within, top?]

theorem Atom.Within.temp {a : Atom} (h : a.Within V) {t : Temp} (ht : a.temp? = some t) :
    V.temp t := by
  cases a <;> simp_all [Within, temp?]

namespace Tail

variable {f : Atom} {as : List Atom}

@[simp] theorem within_ret : (ret as).Within V ↔ ∀ a ∈ as, a.Within V := by
  simp [Within, atoms, head?]

@[simp] theorem within_enter : (enter f as).Within V ↔ f.Within V ∧ ∀ a ∈ as, a.Within V := by
  simp [Within, atoms, head?]

@[simp] theorem within_call {c : Call} : (call c).Within V ↔ c.Within V := by
  simp [Within, atoms, head?, Call.Within, and_comm]

@[simp] theorem within_data {ctor : Ctor} : (data ctor as).Within V ↔ ∀ a ∈ as, a.Within V := by
  simp [Within, atoms, head?]

@[simp] theorem within_closure {k : ClosureId} :
    (closure k as).Within V ↔ V.defn (.closure k) ∧ ∀ a ∈ as, a.Within V := by
  simp [Within, atoms, head?, and_comm]

@[simp] theorem within_sel {ctor : Ctor} {field : Nat} : (sel ctor field f).Within V ↔
    f.Within V := by
  simp [Within, atoms, head?]

@[simp] theorem within_prim {q : Prim} : (prim q as).Within V ↔ ∀ a ∈ as, a.Within V := by
  simp [Within, atoms, head?]

theorem within_iff {t : Tail} :
    t.Within V ↔ (∀ a ∈ t.atoms, a.Within V) ∧ ∀ d ∈ t.refs, V.defn d := by
  have hrefs {d : DefnId} : d ∈ t.refs ↔ t.head? = some d ∨ InAtoms d t.atoms := by
    cases t <;> simp [refs, head?, InAtoms, eq_comm]
  refine and_congr_right fun hatoms => ⟨fun hhead d hd => ?_, fun h d hd =>
    h d (hrefs.mpr (.inl hd))⟩
  obtain hd | ⟨a, ha, r, hr, rfl⟩ := hrefs.mp hd
  · exact hhead d hd
  · exact (hatoms a ha).top hr

theorem Within.mapAtoms {t : Tail} {g : Atom → Atom} (h : t.Within V)
    (hg : ∀ a, a.Within V → (g a).Within V) : (t.mapAtoms g).Within V := by
  refine ⟨fun b hb => ?_, fun d hd => h.2 d (hd ▸ by cases t <;> rfl)⟩
  rw [atoms_mapAtoms] at hb
  obtain ⟨a, ha, rfl⟩ := mem_map.mp hb
  exact hg a (h.1 a ha)

@[simp] theorem isAllocator_mapAtoms (t : Tail) (g : Atom → Atom) :
    (t.mapAtoms g).isAllocator = t.isAllocator := by
  cases t <;> rfl

end Tail

theorem Code.within_iff {code : Code} :
    code.Within V ↔ (∀ a ∈ code.atoms, a.Within V) ∧ ∀ d ∈ code.refs, V.defn d := by
  have hatom {a : Atom} : a.Within V ↔
      a.Within V ∧ ∀ r, a.top? = some r → V.defn (.top r.top) :=
    ⟨fun h => ⟨h, fun _ => h.top⟩, And.left⟩
  have hcalls (cs : List Call) : (∀ c ∈ cs, c.Within V) ↔ (∀ a ∈ cs.flatMap Call.args, a.Within V) ∧
      ∀ c ∈ cs, ∀ d ∈ (Tail.call c).refs, V.defn d := by
    simp only [← Tail.within_call, Tail.within_iff, mem_flatMap, forall_exists_index, and_imp]
    exact ⟨fun h => ⟨fun a c hc => (h c hc).1 a, fun c hc => (h c hc).2⟩,
      fun h c hc => ⟨fun a => h.1 a c hc, h.2 c hc⟩⟩
  induction code with
  | done t => rw [Within, Tail.within_iff, refs_done, atoms]
  | bind vars t rest ih =>
    rw [Within, Tail.within_iff, refs_bind, atoms, forall_mem_append]
    exact (and_congr_right fun _ => ih).trans and_and_and_comm
  | assert a ctor rest ih =>
    rw [Within, hatom, refs_assert, atoms, forall_mem_cons]
    exact (and_congr_right fun _ => ih).trans and_and_and_comm
  | branch test yes no =>
    rw [Within, hatom, refs_branch, atoms, forall_mem_cons]
    exact (and_congr_right fun _ => by simpa using hcalls [yes, no]).trans and_and_and_comm
  | switch a alts =>
    rw [Within, hatom, refs_switch, atoms, forall_mem_cons]
    exact (and_congr_right fun _ => hcalls alts.calls).trans and_and_and_comm

theorem Code.within_of_refs {code : Code} (htemp : ∀ t, V.temp t)
    (hrefs : ∀ d ∈ code.refs, V.defn d) : code.Within V := by
  refine within_iff.mpr ⟨fun a ha => ?_, hrefs⟩
  cases a with
  | temp t => exact htemp t
  | top r => exact hrefs _ (mem_refs.mpr (.inr (.inr ⟨_, ha, r, rfl, rfl⟩)))
  | word | flag | external => trivial

theorem Code.Within.mono {V' : Vocabulary} (hdefn : ∀ d, V.defn d → V'.defn d)
    (htemp : ∀ t, V.temp t → V'.temp t) {code : Code} (h : code.Within V) : code.Within V' := by
  rw [within_iff] at h ⊢
  exact ⟨fun a ha => (h.1 a ha).mono hdefn htemp, fun d hd => hdefn d (h.2 d hd)⟩

theorem Call.Within.map {c : Call} {g : Atom → Atom} (h : c.Within V)
    (hg : ∀ a, a.Within V → (g a).Within V) : Call.Within V ⟨c.target, c.args.map g⟩ :=
  Tail.within_call.mp ((Tail.within_call.mpr h).mapAtoms hg)

theorem Alts.Within.mapCalls {alts : Alts} {g : Call → Call} (h : alts.Within V)
    (hg : ∀ c, c.Within V → (g c).Within V) : (alts.mapCalls g).Within V := by
  intro d hd
  rw [Alts.calls_mapCalls] at hd
  obtain ⟨c, hc, rfl⟩ := mem_map.mp hd
  exact hg c (h c hc)

namespace Subst

variable {s : Subst}

theorem within_empty : ({} : Subst).Within V := fun _ h => by cases h

variable (hs : s.Within V)

include hs

theorem Within.apply {a : Atom} (ha : a.Within V) : (s.apply a).Within V := by
  cases a with
  | temp t =>
    simp only [Subst.apply, lookup]
    cases hfind : s.pairs.find? fun q => q.1 == t with
    | none => exact ha
    | some q => exact hs q (mem_of_find?_eq_some hfind)
  | word _ | flag _ | top _ | external _ => exact ha

theorem Within.applyTail {t : Tail} (ht : t.Within V) : (t.apply s).Within V :=
  ht.mapAtoms fun _ => hs.apply

theorem Within.applyCall {c : Call} (hc : c.Within V) : (c.apply s).Within V :=
  hc.map fun _ => hs.apply

theorem Within.extend (t : Temp) {a : Atom} (ha : a.Within V) :
    (s.extend t a).Within V := by
  unfold Subst.extend
  split
  · exact hs
  · intro q hq
    obtain rfl | hq := mem_cons.mp hq
    · exact ha
    · exact hs q hq

theorem Within.extendAll (ts : List Temp) {as : List Atom} (has : ∀ a ∈ as, a.Within V) :
    (s.extendAll ts as).Within V := by
  induction ts generalizing s as with
  | nil => exact hs
  | cons t ts ih =>
    cases as with
    | nil => exact hs
    | cons a as =>
      exact ih (hs.extend t (has a (.head ..)))
        fun b hb => has b (.tail _ hb)

theorem Within.renameAll (ts : List Temp) {us : List Temp} (hus : ∀ u ∈ us, V.temp u) :
    (s.renameAll ts us).Within V :=
  hs.extendAll ts fun a ha => by
    obtain ⟨u, hu, rfl⟩ := mem_map.mp ha
    exact hus u hu

theorem Within.bind {ts : List Temp} {as : List Atom} {s' : Subst} (h : s.bind ts as = .ok s')
    (has : ∀ a ∈ as, a.Within V) : s'.Within V := by
  unfold Subst.bind at h
  split at h
  · cases h
    exact hs.extendAll ts has
  · cases h

theorem Within.remove (ts : List Temp) : (s.remove ts).Within V := fun q hq =>
  hs q (mem_filter.mp hq).1

theorem Within.renameFresh {n n' : Nat} {ts us : List Temp} (h : Fresh n ts us n')
    (hV : ∀ t : Temp, n ≤ t.index → V.temp t) : (s.renameAll ts us).Within V := by
  induction h generalizing s with
  | nil => exact hs
  | @wildcard n n' t ts us ht _ ih =>
    have hskip : s.renameAll (t :: ts) (t :: us) = s.renameAll ts us := by
      simp only [Subst.renameAll, map_cons, Subst.extendAll, Subst.extend, ht, if_true]
    rw [hskip]
    exact ih hs hV
  | @cons n n' t ts us _ ih =>
    exact ih (hs.extend t (hV ⟨n⟩ (Nat.le_refl n)))
      fun u hu => hV u (Nat.le_of_succ_le hu)

end Subst

theorem Fresh.temp {n n' : Nat} {ts us : List Temp} (h : Fresh n ts us n')
    (hV : ∀ t : Temp, n ≤ t.index → V.temp t) (hts : ∀ t ∈ ts, V.temp t) : ∀ u ∈ us, V.temp u := by
  induction h with
  | nil => exact fun _ hu => by cases hu
  | wildcard _ _ ih =>
    intro u hu
    obtain rfl | hu := mem_cons.mp hu
    · exact hts u (.head ..)
    · exact ih hV (fun t ht => hts t (.tail _ ht)) u hu
  | @cons n n' t ts us _ ih =>
    intro u hu
    obtain rfl | hu := mem_cons.mp hu
    · exact hV ⟨n⟩ (Nat.le_refl n)
    · exact ih (fun u hu => hV u (Nat.le_of_succ_le hu))
        (fun t ht => hts t (.tail _ ht)) u hu

namespace Code

theorem within_jump {c : Call} : (jump c).Within V ↔ c.Within V := Tail.within_call

variable {code : Code}

theorem Within.copyFresh (h : code.Within V) {m : Temps} {s : Subst} (hs : s.Within V)
    (hm : V.Fresh m) : (code.copyFresh m s).1.Within V := by
  induction code generalizing m s with
  | done t => exact hs.applyTail h
  | bind vars tail rest ih =>
    have hfresh := m.freshLikeAll_fresh vars
    exact ⟨hs.applyTail h.1, ih h.2 (hs.renameFresh hfresh hm)
      fun t ht => hm t (le_trans hfresh.le ht)⟩
  | assert a ctor rest ih => exact ⟨hs.apply h.1, ih h.2 hs hm⟩
  | branch test yes no => exact ⟨hs.apply h.1, hs.applyCall h.2.1, hs.applyCall h.2.2⟩
  | switch a alts => exact ⟨hs.apply h.1, h.2.mapCalls fun _ => hs.applyCall⟩

theorem Within.andThen {code next r : Code} {vars : List Temp} (h : code.Within V)
    (hnext : next.Within V) (hr : code.andThen vars next = .ok r) : r.Within V := by
  induction code generalizing r with
  | done t =>
    cases hr
    exact ⟨h, hnext⟩
  | bind vs tail rest ih =>
    obtain ⟨r', hr', rfl⟩ := map_eq_ok_iff.mp hr
    exact ⟨h.1, ih h.2 hr'⟩
  | assert a ctor rest ih =>
    obtain ⟨r', hr', rfl⟩ := map_eq_ok_iff.mp hr
    exact ⟨h.1, ih h.2 hr'⟩
  | branch test yes no => cases hr
  | switch a alts => cases hr

theorem Within.freeTemps (h : code.Within V) : ∀ t ∈ code.freeTemps, V.temp t := by
  -- Every open read is the read of an atom, whatever is bound on the way.
  have hopen (bound : List Temp) : ∀ t ∈ code.openReads bound, t ∈ tempsOf code.atoms := by
    clear h
    induction code generalizing bound with
    | bind vars tail rest ih => grind [openReads, tempsOf, atoms, Tail.temps]
    | assert a ctor rest ih => grind [openReads, tempsOf, atoms]
    | done | branch | switch => grind [openReads, tempsOf, atoms, Tail.temps]
  intro t ht
  obtain ⟨a, ha, hat⟩ := mem_filterMap.mp (hopen [] t (mem_distinct.mp ht))
  exact ((within_iff.mp h).1 a ha).temp hat

end Code

namespace Facts

variable {fs : Facts}

theorem within_empty : ({} : Facts).Within V := fun _ h => by cases h

variable (h : fs.Within V)

include h

variable {t : Temp} {u : Tail} {fact : Fact} {tail : Tail}

theorem Within.learn (t : Temp) (hfact : ∀ u, fact.tail? = some u → u.Within V) :
    (fs.learn t fact).Within V := by
  unfold Facts.learn
  split
  · exact h
  · rename_i ht
    intro i hi
    obtain rfl | hi := mem_cons.mp hi
    · exact ⟨V.named t (by simpa using ht), hfact⟩
    · exact h i hi

theorem Within.add (t : Temp) (htail : tail.Within V) :
    (fs.add t tail).Within V :=
  h.learn t fun u hu => by
    obtain rfl := Option.some.inj hu
    exact htail

theorem Within.addCtor (t : Temp) (c : Ctor) : (fs.addCtor t c).Within V :=
  h.learn t fun u hu => by cases hu

theorem Within.kill (vars : List Temp) : (fs.kill vars).Within V := fun i hi =>
  h i (mem_filter.mp hi).1

theorem Within.killNonPure : fs.killNonPure.Within V := fun i hi =>
  h i (mem_filter.mp hi).1

theorem Within.factsAfter (vars : List Temp) (htail : tail.Within V) :
    (Pass.factsAfter fs vars tail).Within V := by
  have hkept : (if tail.hasNoEffect then fs.kill vars else (fs.kill vars).killNonPure).Within
    V := by
    split
    · exact h.kill vars
    · exact (h.kill vars).killNonPure
  unfold Pass.factsAfter
  dsimp only
  split
  · split
    · exact hkept.add _ htail
    · exact hkept
  · exact hkept

theorem Within.lookup (hfact : fs.lookup t = some fact) (hu : fact.tail? = some u) :
    u.Within V := by
  obtain ⟨i, hi, rfl⟩ := map_eq_some_iff.mp hfact
  exact (h i (mem_of_find?_eq_some hi)).2 u hu

theorem Within.lookupTail (hu : fs.lookupTail t = some u) :
    u.Within V := by
  obtain ⟨fact, hfact, hu⟩ := bind_eq_some_iff.mp hu
  exact h.lookup hfact hu

theorem Within.find {u : Temp} (hu : fs.find tail = some u) :
    V.temp u := by
  obtain ⟨i, hi, rfl⟩ := map_eq_some_iff.mp hu
  exact (h i (mem_of_find?_eq_some hi)).1

/-- What is known of an atom mentions nothing new: it was learned, or it is the body of a top-level
that the atom refers to. -/
theorem Within.about (hV : V.Closed p) {a : Atom} (ha : a.Within V)
    (hfact : fs.about p a = some fact) (hu : fact.tail? = some u) : u.Within V := by
  cases a with
  | temp t => exact h.lookup hfact hu
  | top r =>
    obtain ⟨t, ht, rfl⟩ := map_eq_some_iff.mp hfact
    obtain rfl := Option.some.inj hu
    simp only [topAllocator?] at ht
    split at ht
    · rename_i top htop
      split at ht
      · obtain rfl := Option.some.inj ht
        exact hV.top ha htop
      · cases ht
    · cases ht
  | word _ | flag _ | external _ => cases hfact

theorem Within.tailOf (hV : V.Closed p) {a : Atom} (ha : a.Within V) (hu : fs.tailOf p a = some u) :
    u.Within V := by
  obtain ⟨fact, hfact, hu⟩ := bind_eq_some_iff.mp hu
  exact h.about hV ha hfact hu

theorem Within.sumOf {base : Atom} {n : Word} (hsum : fs.sumOf? t = some (base, n)) :
    base.Within V := by
  unfold sumOf? at hsum
  split at hsum
  · rename_i base' n' htail
    cases hsum
    exact Tail.within_prim.mp (h.lookupTail htail) base (.head ..)
  · cases hsum

theorem Within.followSums {fuel : Nat} {offset n : Word} {base : Atom} (ht : V.temp t)
    (hend : fs.followSums fuel t offset = some (base, n)) : base.Within V := by
  induction fuel generalizing t offset with
  | zero => cases hend
  | succ fuel ih =>
    unfold Facts.followSums at hend
    split at hend
    · cases hend
      exact ht
    · split at hend
      · rename_i u n' hsum
        exact ih (h.sumOf hsum) hend
      · rename_i hsum
        cases hend
        exact h.sumOf hsum
      · cases hend
        exact ht

theorem Within.argShape (hV : V.Closed p) (constants : Bool) {a : Atom} (ha : a.Within V) :
    (fs.argShape p constants a).1.Within V ∧
      ∀ b ∈ (fs.argShape p constants a).2, b.Within V := by
  have hplain : (if constants && a.isConstant then (ArgShape.value a, [])
      else (ArgShape.unknown, [a])).1.Within V ∧ ∀ b ∈ (if constants && a.isConstant
      then (ArgShape.value a, []) else (ArgShape.unknown, [a])).2, b.Within V := by
    split
    · rename_i hconst
      exact ⟨(Bool.and_eq_true_iff.mp hconst).2, fun _ hb => by cases hb⟩
    · exact ⟨trivial, by simpa using ha⟩
  unfold Facts.argShape
  dsimp only
  split
  · rename_i c field fields hfact
    exact ⟨trivial, Tail.within_data.mp (h.about hV ha hfact rfl)⟩
  · rename_i k fields hfact
    exact Tail.within_closure.mp (h.about hV ha hfact rfl)
  · split
    · exact ⟨trivial, by simpa using ha⟩
    · exact hplain
  · exact hplain

theorem Within.argShapes (hV : V.Closed p) (constants : Bool) {as : List Atom}
    (has : ∀ a ∈ as, a.Within V) : (∀ s ∈ (fs.argShapes p constants as).1, s.Within V) ∧
      ∀ b ∈ (fs.argShapes p constants as).2, b.Within V := by
  constructor
  · intro s hs
    obtain ⟨x, hx, rfl⟩ := mem_map.mp hs
    obtain ⟨a, ha, rfl⟩ := mem_map.mp hx
    exact (h.argShape hV constants (has a ha)).1
  · intro b hb
    obtain ⟨x, hx, hb⟩ := mem_flatMap.mp hb
    obtain ⟨a, ha, rfl⟩ := mem_map.mp hx
    exact (h.argShape hV constants (has a ha)).2 b hb

end Facts

namespace Prim

variable {fs : Facts} {q : Prim} {t : Tail}

theorem within_sumTail {base : Atom} (n : Word) (h : base.Within V) :
    (sumTail base n).Within V := by
  have hgeneral : (if n = 0 then Tail.ret [base] else .prim add [base, .word n]).Within V := by
    split
    · simpa using h
    · simpa using ⟨h, trivial⟩
  cases base with
  | word w => simp [sumTail, Atom.Within]
  | temp _ | flag _ | top _ | external _ => exact hgeneral

theorem within_addLaw (hfs : fs.Within V) {x : Atom} {n : Word} (hx : x.Within V)
    (h : addLaw? fs x n = some t) : t.Within V := by
  unfold addLaw? at h
  split at h
  · split at h
    · obtain ⟨⟨base, n'⟩, hend, rfl⟩ := map_eq_some_iff.mp h
      exact within_sumTail n' (hfs.followSums hx hend)
    · cases h
  · cases h

/-- The laws for two arguments return one of them or a constant, or add a constant. -/
theorem within_binaryLaw (hfs : fs.Within V) {x y : Atom} (hx : x.Within V)
    (h : q.binaryLaw? fs x y = some t) : t.Within V := by
  have hret : (Tail.ret [x]).Within V := by simpa using hx
  have hword (n : Word) : (Tail.ret [.word n]).Within V := by simp [Atom.Within]
  have hflag (b : Bool) : (Tail.ret [.flag b]).Within V := by simp [Atom.Within]
  unfold binaryLaw? at h
  split at h
  case h_1 =>
    split at h
    · exact Option.some.inj h ▸ hret
    · obtain ⟨n, -, h⟩ := bind_eq_some_iff.mp h
      exact within_addLaw hfs hx h
  case h_2 =>
    split at h
    · exact Option.some.inj h ▸ hret
    · split at h
      · exact Option.some.inj h ▸ hword 0
      · obtain ⟨n, -, rfl⟩ := map_eq_some_iff.mp h
        cases hlaw : addLaw? fs x (-n) with
        | none => simpa using ⟨hx, trivial⟩
        | some u => exact within_addLaw hfs hx hlaw
  all_goals
    repeat' split at h
    all_goals first
      | exact Option.some.inj h ▸ hret
      | exact Option.some.inj h ▸ hword _
      | exact Option.some.inj h ▸ hflag _
      | cases h

theorem within_negationLaw (hfs : fs.Within V) {x : Temp} (h : q.negationLaw? fs x = some t) :
    t.Within V := by
  have hdual {q' : Prim} {inner : List Atom} (hinner : ∀ a ∈ inner, a.Within V)
      (h : (if q = bnot then q'.dual?.map fun dual => Tail.prim dual inner else none) = some t) :
      t.Within V := by
    split at h
    · obtain ⟨dual, -, rfl⟩ := map_eq_some_iff.mp h
      exact Tail.within_prim.mpr hinner
    · cases h
  unfold negationLaw? at h
  split at h
  · rename_i q' inner htail
    have hinner := Tail.within_prim.mp (hfs.lookupTail htail)
    split at h
    · split at h
      · obtain rfl := Option.some.inj h
        exact Tail.within_ret.mpr hinner
      · exact hdual hinner h
    · exact hdual hinner h
  · cases h

theorem within_simplify (hfs : fs.Within V) {args : List Atom} (hargs : ∀ a ∈ args, a.Within V)
    (h : q.simplify fs args = some t) : t.Within V := by
  unfold simplify at h
  split at h
  · rename_i a hfold
    obtain rfl := Option.some.inj h
    obtain ⟨v, -, rfl⟩ := map_eq_some_iff.mp hfold
    cases v <;> simp [Atom.ofScalar, Atom.Within]
  · unfold law? at h
    split at h
    · rename_i x y _
      have hx : x.Within V := hargs x (by simp)
      have hy : y.Within V := hargs y (by simp)
      split at h
      · obtain rfl := Option.some.inj h
        cases hlaw : q.binaryLaw? fs y x with
        | none => simpa using ⟨hy, hx⟩
        | some u => exact within_binaryLaw hfs hy hlaw
      · exact within_binaryLaw hfs hx h
    · split at h
      · exact within_negationLaw hfs h
      · cases h
    · cases h

end Prim

section Tops

variable (hV : V.Closed p)

include hV

theorem Atom.Within.replaceTop {a : Atom} (ha : a.Within V) : (p.replaceTop a).Within V := by
  unfold Program.replaceTop
  cases hvalue : p.topValue? a with
  | none => exact ha
  | some value =>
    cases a with
    | top r =>
      obtain ⟨top, htop, hvalue⟩ := bind_eq_some_iff.mp hvalue
      have htail := hV.top ha htop
      split at hvalue
      · rename_i values hret
        obtain ⟨v, hv, hvalue⟩ := bind_eq_some_iff.mp hvalue
        split at hvalue
        · obtain rfl := Option.some.inj hvalue
          rw [hret] at htail
          exact Tail.within_ret.mp htail v (mem_of_getElem? hv)
        · cases hvalue
      · cases hvalue
    | temp _ | word _ | flag _ | external _ => cases hvalue

theorem Code.Within.liveness {code : Code} (h : code.Within V) : (code.liveness p).1.Within V := by
  have hatom (a : Atom) (ha : a.Within V) : (p.replaceTop a).Within V := ha.replaceTop hV
  induction code with
  | done t => exact Tail.Within.mapAtoms h hatom
  | bind vars tail rest ih =>
    unfold Code.liveness
    dsimp only
    split
    · exact ih h.2
    · exact ⟨h.1.mapAtoms hatom, ih h.2⟩
  | assert a ctor rest ih =>
    unfold Code.liveness
    dsimp only
    split
    · split
      · exact ⟨h.1, ih h.2⟩
      · exact ih h.2
    · exact ⟨h.1, ih h.2⟩
  | branch test yes no => exact ⟨hatom test h.1, h.2.1.map hatom, h.2.2.map hatom⟩
  | switch a alts => exact ⟨hatom a h.1, h.2.mapCalls fun c hc => hc.map hatom⟩

theorem Call.Within.followGotos {fuel : Nat} {visited : List BlockId} {c d : Call} (hc : c.Within V)
    (h : p.followGotos fuel visited c = .ok d) : d.Within V := by
  induction fuel generalizing visited c with
  | zero =>
    cases h
    exact hc
  | succ fuel ih =>
    unfold Program.followGotos at h
    obtain ⟨block, hblock, h⟩ := bind_eq_ok_iff.mp h
    split at h
    · rename_i next hcode
      split at h
      · obtain ⟨s, hs, h⟩ := bind_eq_ok_iff.mp h
        have hbody := hV.block hc.1 (Program.block_eq_ok_iff.mp hblock)
        rw [hcode] at hbody
        exact ih ((Subst.within_empty.bind hs hc.2).applyCall (Tail.within_call.mp hbody)) h
      · cases h
        exact hc
    · cases h
      exact hc

theorem Call.Within.shortCase {fs : Facts} {c d : Call} {arg : Atom} (hc : c.Within V)
    (h : p.shortCase fs c = .ok (some (arg, d))) : d.Within V := by
  unfold Program.shortCase at h
  obtain ⟨block, hblock, h⟩ := bind_eq_ok_iff.mp h
  split at h
  · rename_i scrutinee alts hcode
    split at h
    · cases h
    · split at h
      · cases h
      · split at h
        · cases h
        · rename_i taken htaken
          obtain ⟨s, hs, h⟩ := bind_eq_ok_iff.mp h
          cases h
          have hbody := hV.block hc.1 (Program.block_eq_ok_iff.mp hblock)
          rw [hcode] at hbody
          obtain ⟨ctor, -, hselect⟩ := bind_eq_some_iff.mp htaken
          exact (Subst.within_empty.bind hs hc.2).applyCall
            (hbody.2 taken (Alts.mem_calls_of_select hselect))
  · cases h

end Tops

theorem Alts.mem_calls_of_tighten {alts alts' : Alts} {texts : List String} {c : Call}
    (hres : alts.tighten p = .ok (alts', texts)) (hc : c ∈ alts'.calls) : c ∈ alts.calls := by
  obtain ⟨arms, default⟩ := alts
  unfold Alts.tighten at hres
  split at hres
  · split at hres
    · cases hres
      simp only [Alts.calls, toList_none, append_nil] at hc
      exact mem_append_left _ (by simp [*])
    · split at hres
      · obtain ⟨siblings, -, hres⟩ := bind_eq_ok_iff.mp hres
        split at hres
        · cases hres
          simp_all [Alts.calls]
        · cases hres
          exact hc
      · cases hres
        exact hc
  · cases hres
    exact hc

theorem Alts.Within.tighten {alts alts' : Alts} {texts : List String} (h : alts.Within V)
    (hres : alts.tighten p = .ok (alts', texts)) : alts'.Within V :=
  fun c hc => h c (mem_calls_of_tighten hres hc)

namespace Code

theorem Within.tidy {code code' : Code} {texts : List String} (h : code.Within V)
    (hres : code.tidy p = .ok (code', texts)) : code'.Within V := by
  induction code generalizing code' texts with
  | bind vars tail rest ih =>
    simp only [Code.tidy, bind_eq_ok_iff] at hres
    obtain ⟨never, -, hres⟩ := hres
    split at hres
    · cases hres
      exact h.1
    · obtain ⟨⟨rest', texts'⟩, hrest, hres⟩ := bind_eq_ok_iff.mp hres
      have hrest' := ih h.2 hrest
      split at hres
      · cases hres
        exact hrest'
      · split at hres
        · cases hres
          exact h.1
        · cases hres
          exact ⟨h.1, hrest'⟩
  | assert a ctor rest ih =>
    obtain ⟨⟨rest', texts'⟩, hrest, heq⟩ := map_eq_ok_iff.mp hres
    cases heq
    exact ⟨h.1, ih h.2 hrest⟩
  | branch test yes no =>
    simp only [Code.tidy, Except.ok.injEq] at hres
    split at hres
    · cases hres
      exact within_jump.mpr h.2.1
    · cases hres
      exact h
  | switch a alts =>
    simp only [Code.tidy, Except.ok.injEq] at hres
    split at hres
    · rename_i c hagreed
      cases hres
      exact within_jump.mpr (h.2 c (agreed?_eq_some hagreed).1)
    · cases hres
      exact h
  | done t =>
    cases hres
    exact h

theorem Within.simplifyCases {code code' : Code} {texts : List String} (h : code.Within V)
    (hres : code.simplifyCases p = .ok (code', texts)) : code'.Within V := by
  induction code generalizing code' texts with
  | bind vars tail rest ih =>
    obtain ⟨⟨rest', texts'⟩, hrest, heq⟩ := map_eq_ok_iff.mp hres
    cases heq
    exact ⟨h.1, ih h.2 hrest⟩
  | assert a ctor rest ih =>
    obtain ⟨⟨rest', texts'⟩, hrest, heq⟩ := map_eq_ok_iff.mp hres
    cases heq
    exact ⟨h.1, ih h.2 hrest⟩
  | switch a alts =>
    simp only [Code.simplifyCases, bind_eq_ok_iff] at hres
    obtain ⟨⟨alts', texts'⟩, htighten, hres⟩ := hres
    have halts := h.2.tighten htighten
    split at hres
    · rename_i c honly
      cases hres
      exact within_jump.mpr (halts c (Alts.mem_calls_of_only? honly))
    · cases hres
      exact ⟨h.1, halts⟩
  | done t | branch test yes no =>
    cases hres
    exact h

theorem Within.mapTails {code : Code} (h : code.Within V) {f : Tail → Tail}
    (hf : ∀ t, t.Within V → (f t).Within V) : (code.mapTails f).Within V := by
  induction code with
  | done t => exact hf t h
  | bind vars tail rest ih => exact ⟨hf tail h.1, ih h.2⟩
  | assert a ctor rest ih => exact ⟨h.1, ih h.2⟩
  | branch test yes no => exact h
  | switch a alts => exact h

theorem Within.mapBranches {code : Code} (h : code.Within V) {g : Call → Call}
    (hg : ∀ c, c.Within V → (g c).Within V) : (code.mapBranches g).Within V := by
  induction code with
  | done t => exact h
  | bind vars tail rest ih => exact ⟨h.1, ih h.2⟩
  | assert a ctor rest ih => exact ⟨h.1, ih h.2⟩
  | branch test yes no => exact ⟨h.1, hg yes h.2.1, hg no h.2.2⟩
  | switch a alts => exact ⟨h.1, h.2.mapCalls hg⟩

end Code

namespace Usage

variable (pruned : Usage)

theorem within_pruneArgs (d : DefnId) {as : List Atom} (h : ∀ a ∈ as, a.Within V) :
    ∀ a ∈ pruned.pruneArgs d as, a.Within V := by
  unfold pruneArgs
  split
  · exact fun a ha => h a (mem_of_mem_keep ha)
  · exact h

theorem within_pruneCall {c : Call} (h : c.Within V) : (pruned.pruneCall c).Within V :=
  ⟨h.1, pruned.within_pruneArgs _ h.2⟩

theorem within_pruneTail {t : Tail} (h : t.Within V) : (pruned.pruneTail t).Within V := by
  cases t with
  | call c => exact Tail.within_call.mpr (pruned.within_pruneCall (Tail.within_call.mp h))
  | closure k args =>
    obtain ⟨hk, hargs⟩ := Tail.within_closure.mp h
    exact Tail.within_closure.mpr ⟨hk, pruned.within_pruneArgs _ hargs⟩
  | ret _ | enter _ _ | data _ _ | sel _ _ _ | prim _ _ => exact h

theorem isAllocator_pruneTail (t : Tail) : (pruned.pruneTail t).isAllocator = t.isAllocator := by
  cases t <;> rfl

end Usage

theorem mem_of_mem_withoutRepeats {α : Type} {a : α} {as : List α} {repeats : List (Option Nat)}
    (h : a ∈ withoutRepeats as repeats) : a ∈ as := by
  induction as generalizing repeats with
  | nil => simp [withoutRepeats] at h
  | cons b as ih =>
    obtain _ | ⟨_ | j, repeats⟩ := repeats
    · simp [withoutRepeats] at h
    · obtain rfl | h := mem_cons.mp h
      · exact .head ..
      · exact .tail _ (ih h)
    · exact .tail _ (ih h)

theorem lt_of_repeatsOf {as : List Atom} {i j : Nat} (h : (repeatsOf as)[i]? = some (some j)) :
    j < i := by
  simp only [repeatsOf, getElem?_mapIdx, map_eq_some_iff] at h
  obtain ⟨a, -, h⟩ := h
  split at h
  · have := (findIdx?_eq_some_iff_getElem.mp h).1
    simp only [length_take] at this
    omega
  · cases h

theorem Prologue.within_wrap {x : Prologue} (hinits : ∀ i ∈ x.inits, i.2.Within V)
    (hasserts : ∀ i ∈ x.asserts, V.temp i.1) {code : Code} (h : code.Within V) :
    (x.wrap code).Within V := by
  have hcode : (x.asserts.foldr (fun i code => .assert (.temp i.1) i.2 code) code).Within V := by
    revert hasserts
    induction x.asserts with
    | nil => exact fun _ => h
    | cons i asserts ih =>
      exact fun hasserts => ⟨hasserts i (.head ..),
        ih fun j hj => hasserts j (.tail _ hj)⟩
  unfold Prologue.wrap
  revert hinits
  induction x.inits with
  | nil => exact fun _ => hcode
  | cons i inits ih =>
    exact fun hinits => ⟨hinits i (.head ..),
      ih fun j hj => hinits j (.tail _ hj)⟩

theorem Origin.within_of_isFor {o : Origin} {shapes : List ArgShape} (h : o.isFor shapes = true)
    (hshapes : ∀ s ∈ shapes, s.Within V) : o.Within V := by
  have hsame {s s' : ArgShape} (h : s.same s' = true) (hs' : s'.Within V) : s.Within V := by
    cases s with
    | closure k =>
      cases s' <;> simp only [ArgShape.same, beq_iff_eq, Bool.false_eq_true] at h
      exact h ▸ hs'
    | value a =>
      cases s' <;> simp only [ArgShape.same, beq_iff_eq, Bool.false_eq_true] at h
      exact h ▸ hs'
    | unknown | data _ | tag _ => trivial
  have hall (own : List ArgShape) : ∀ {shapes : List ArgShape}, ArgShape.sameAll own shapes = true →
      (∀ s ∈ shapes, s.Within V) → ∀ s ∈ own, s.Within V := by
    induction own with
    | nil => exact fun _ _ _ hs => by cases hs
    | cons q own ih =>
      intro shapes h hshapes s hs
      cases shapes with
      | nil => cases h
      | cons q' shapes =>
        obtain ⟨hq, hown⟩ := Bool.and_eq_true_iff.mp h
        obtain rfl | hs := mem_cons.mp hs
        · exact hsame hq (hshapes q' (.head ..))
        · exact ih hown (fun s hs => hshapes s (.tail _ hs)) s hs
  cases o with
  | known own depth => exact hall own h hshapes
  | source | shared _ _ | continuation _ | entering _ _ => trivial

end MonadicIR
