import MonadicIR.Proofs.Faithful
import MonadicIR.Proofs.NeverReturning

namespace MonadicIR

open List Option

namespace Program

variable {p : Program}

instance (p : Program) (d : DefnId) : Decidable (p.Retained d) :=
  inferInstanceAs (Decidable (d ∈ Component.allMembers p.components.toList))

/-- The variables that a body reads without binding them. -/
def openTemps (p : Program) : DefnId → List Temp
  | .block b => (p.blocks[b.index]?).elim [] fun block => block.code.freeTemps
  | .closure k => (p.closures[k.index]?).elim [] fun closure => closure.tail.temps
  | .top _ => []

/-- The variables that have values when a body starts. -/
def entryTemps (p : Program) : DefnId → List Temp
  | .block b => (p.blocks[b.index]?).elim [] Block.params
  | .closure k => (p.closures[k.index]?).elim [] fun closure => closure.stored ++ closure.params
  | .top _ => []

def innerTemps (p : Program) : DefnId → List Temp
  | .block b => (p.blocks[b.index]?).elim [] fun block => block.code.boundTemps
  | .closure _ | .top _ => []

/-- Do the bodies of blocks and closures read only what they bind, take or store? -/
def WellScoped (p : Program) : Prop :=
  ∀ d, p.Retained d → ∀ t ∈ p.openTemps d, t ∈ p.entryTemps d

/-- Are the wildcard and all variables that are bound in the table of the program? -/
def Allocated (p : Program) : Prop :=
  0 < p.temps.size ∧
    ∀ d, p.Retained d → ∀ t ∈ p.entryTemps d ++ p.innerTemps d, t.index < p.temps.size

def Underived (p : Program) : Prop :=
  (∀ block ∈ p.blocks, block.derived = []) ∧ ∀ closure ∈ p.closures, closure.derived = []

instance (p : Program) : Decidable p.WellScoped :=
  inferInstanceAs (Decidable (∀ d ∈ Component.allMembers p.components.toList, ∀ t ∈ p.openTemps d,
    t ∈ p.entryTemps d))

instance (p : Program) : Decidable p.Allocated :=
  inferInstanceAs (Decidable (0 < p.temps.size ∧ ∀ d ∈ Component.allMembers p.components.toList,
    ∀ t ∈ p.entryTemps d ++ p.innerTemps d, t.index < p.temps.size))

instance (p : Program) : Decidable p.Underived :=
  inferInstanceAs (Decidable ((∀ block ∈ p.blocks, block.derived = []) ∧
    ∀ closure ∈ p.closures, closure.derived = []))

/-- A program that passes its check, and keeps what the check does not look at. -/
structure Lawful (p : Program) : Prop where
  checked : p.check = .ok ()
  current : p.Current
  wellScoped : p.WellScoped
  allocated : p.Allocated
  declared : p.Declared

def signature (p : Program) (h : 0 < p.temps.size) : Signature where
  block b := if p.Retained (.block b) then (p.blocks[b.index]?).map (·.params.length) else none
  closure k :=
    if p.Retained (.closure k) then (p.closures[k.index]?).map (·.stored.length) else none
  top r := p.Retained (.top r.top) ∧
    ∃ top, p.tops[r.top.index]? = some top ∧ r.index < top.lhs.length
  ctor := p.Declares
  temps := p.temps.size
  temps_pos := h

namespace Lawful

abbrev sig (h : p.Lawful) : Signature := p.signature h.allocated.1

variable (h : p.Lawful)

include h

variable {k : ClosureId} {b : BlockId} {d : DefnId}

theorem sig_block {n : Nat} : h.sig.block b = some n ↔ p.Retained (.block b) ∧
    ∃ block, p.blocks[b.index]? = some block ∧ block.params.length = n := by
  simp [signature]

theorem sig_closure {n : Nat} : h.sig.closure k = some n ↔ p.Retained (.closure k) ∧
    ∃ closure, p.closures[k.index]? = some closure ∧ closure.stored.length = n := by
  simp [signature]

theorem legal_atom {a : Atom} {scope : List Temp} (hcheck : p.checkAtom d a = .ok ())
    (hret : ∀ r, a.top? = some r → p.Retained (.top r.top))
    (hscope : ∀ t, a.temp? = some t → t.isWildcard = false → t ∈ scope) : a.Legal h.sig scope := by
  cases a with
  | temp t => exact hscope t rfl (read_of_checkAtom hcheck rfl)
  | top r =>
    simp only [checkAtom, bind_eq_ok_iff, top_eq_ok_iff] at hcheck
    obtain ⟨top, htop, hlt⟩ := hcheck
    exact ⟨hret r rfl, top, htop, by simpa using hlt⟩
  | word | flag | external => trivial

theorem legal_tail {t : Tail} {scope : List Temp} (hcheck : p.checkTail d t = .ok ())
    (hret : ∀ e ∈ t.refs, p.Retained e) (hdecl : ∀ c ∈ t.ctors, p.Declares c)
    (hscope : ∀ x ∈ t.temps, x.isWildcard = false → x ∈ scope) : t.Legal h.sig scope := by
  obtain ⟨hatoms, hshape⟩ := checkTail_eq_ok_iff.mp hcheck
  refine ⟨fun a ha => h.legal_atom (hatoms a ha) (fun r hr => hret _ (Tail.top_mem_refs ha hr))
    fun x hx => hscope x (mem_filterMap.mpr ⟨a, ha, hx⟩), ?_⟩
  cases t with
  | call c =>
    exact h.sig_block.mpr ⟨hret _ (Tail.mem_refs_call.mpr (.inl rfl)), checkShape_call.mp hshape⟩
  | closure k args =>
    exact h.sig_closure.mpr ⟨hret _ (by simp [Tail.refs]), checkShape_closure.mp hshape⟩
  | data c args =>
    simp only [checkShape, bind_eq_ok_iff, exists_unit, checkCount_eq_ok_iff] at hshape
    exact ⟨hdecl c (by simp [Tail.ctors]), hshape.2.symm⟩
  | sel c field a => exact hdecl c (by simp [Tail.ctors])
  | ret | enter | prim => trivial

/-- Checked code is legal where it is well scoped: what it does not bind, the parameters are. -/
theorem legal_code {code : Code} {params bound seen : List Temp}
    (hcheck : p.checkCode d code seen = .ok ()) (hret : ∀ e ∈ code.refs, p.Retained e)
    (hdecl : ∀ c ∈ code.ctors, p.Declares c) (hopen : ∀ t ∈ code.openReads bound, t ∈ params)
    (hseen : ∀ t ∈ named (params ++ bound), t ∈ seen)
    (hbound : ∀ t ∈ code.boundTemps, t.index < p.temps.size) :
    code.Legal h.sig (named (params ++ bound)) := by
  have hread {reads bound : List Temp} (hreads : ∀ t ∈ reads.filter (!bound.contains ·), t ∈ params)
      (t : Temp) (ht : t ∈ reads) (hw : t.isWildcard = false) : t ∈ named (params ++ bound) := by
    rw [mem_named, mem_append]
    refine ⟨?_, hw⟩
    by_cases hmem : t ∈ bound
    · exact .inr hmem
    · exact .inl (hreads t (mem_filter.mpr ⟨ht, by simpa using hmem⟩))
  induction code generalizing bound seen with
  | done t => exact h.legal_tail hcheck (Code.refs_done.mp hret) hdecl (hread hopen)
  | bind vars t rest ih =>
    obtain ⟨ht, -, hnodup, hnew, hrest⟩ := checkCode_bind.mp hcheck
    obtain ⟨hrett, hretr⟩ := Code.refs_bind.mp hret
    simp only [Code.openReads, forall_mem_append] at hopen
    simp only [Code.ctors, forall_mem_append] at hdecl
    simp only [Code.boundTemps, forall_mem_append] at hbound
    refine ⟨h.legal_tail ht hrett hdecl.1 (hread hopen.1), ⟨hnodup, fun v hv hmem => ?_, fun v hv =>
      ?_⟩, ?_⟩
    · exact hnew v hv (hseen v hmem)
    · exact hbound.1 v (mem_named.mp hv).1
    · rw [← named_append, append_assoc]
      refine ih hrest hretr hdecl.2 hopen.2 (fun x hx => ?_) hbound.2
      rw [← append_assoc, named_append, mem_append] at hx
      rw [mem_append, mem_reverse]
      exact hx.symm.imp_right (hseen x)
  | assert a ctor rest ih =>
    obtain ⟨ha, -, hrest⟩ := checkCode_assert.mp hcheck
    obtain ⟨hreta, hretr⟩ := Code.refs_assert.mp hret
    simp only [Code.openReads, forall_mem_append] at hopen
    exact ⟨h.legal_atom ha hreta fun t ht => hread hopen.1 t (by simp [ht]),
      hdecl ctor (.head ..),
      ih hrest hretr (fun c hc => hdecl c (.tail _ hc)) hopen.2 hseen hbound⟩
  | branch test yes no =>
    obtain ⟨ha, hcalls⟩ := checkCode_branch.mp hcheck
    obtain ⟨hreta, hretc⟩ := Code.refs_branch.mp hret
    have hcall (c : Call) (hc : c ∈ [yes, no]) : c.Legal h.sig (named (params ++ bound)) := by
      refine h.legal_tail (hcalls c hc) (hretc c hc) (by simp [Tail.ctors]) fun t ht => ?_
      refine hread hopen t ?_
      obtain ⟨a, ha, hat⟩ := mem_filterMap.mp ht
      refine mem_filterMap.mpr ⟨a, ?_, hat⟩
      simp only [mem_cons, not_mem_nil, or_false] at hc
      obtain rfl | rfl := hc <;> simp_all [Code.atoms, Tail.atoms]
    exact ⟨h.legal_atom ha hreta fun t ht => hread hopen t (by simp [tempsOf, Code.atoms, ht]),
      hcall yes (by simp), hcall no (by simp)⟩
  | switch a alts =>
    obtain ⟨ha, hcalls, halts⟩ := checkCode_switch.mp hcheck
    obtain ⟨hreta, hretc⟩ := Code.refs_switch.mp hret
    refine ⟨h.legal_atom ha hreta fun t ht => hread hopen t (by simp [tempsOf, Code.atoms, ht]),
      fun c hc => ?_, fun arm harm => hdecl _ (mem_map_of_mem harm), ?_⟩
    · refine h.legal_tail (hcalls c hc) (hretc c hc) (by simp [Tail.ctors]) fun t ht => ?_
      refine hread hopen t ?_
      obtain ⟨x, hx, hxt⟩ := mem_filterMap.mp ht
      exact mem_filterMap.mpr ⟨x, .tail _ (mem_flatMap.mpr ⟨c, hc, hx⟩), hxt⟩
    · exact (checkAlts_eq_ok_iff.mp halts).2.1

theorem binders_block {block : Block} (hret : p.Retained (.block b))
    (hb : p.blocks[b.index]? = some block) : Binders h.sig [] block.params := by
  obtain ⟨_, hb', hnodup, -⟩ := checkDefn_block.mp (checkDefn_of_retained h.checked hret)
  obtain rfl := mem_unique hb hb'
  refine ⟨hnodup, by simp, fun v hv => h.allocated.2 _ hret v (mem_append_left _ ?_)⟩
  simpa [entryTemps, hb] using (mem_named.mp hv).1

theorem legal_block {block : Block} (hret : p.Retained (.block b))
    (hb : p.blocks[b.index]? = some block) : block.code.Legal h.sig (named block.params) := by
  obtain ⟨_, hb', -, hcode⟩ := checkDefn_block.mp (checkDefn_of_retained h.checked hret)
  obtain rfl := mem_unique hb hb'
  rw [← append_nil block.params]
  refine h.legal_code hcode (fun e => h.current.retained_of_code hret hb)
    (fun c hc => h.declared _ hret c (by simpa [ctors, hb] using hc)) (fun t ht => ?_) (by simp)
    fun t ht => ?_
  · simpa [entryTemps, hb] using h.wellScoped _ hret t
      (by simpa [openTemps, hb, Code.freeTemps, mem_distinct] using ht)
  · exact h.allocated.2 _ hret t (mem_append_right _ (by simpa [innerTemps, hb] using ht))

theorem binders_closure {closure : Closure} (hret : p.Retained (.closure k))
    (hk : p.closures[k.index]? = some closure) :
    Binders h.sig [] (closure.stored ++ closure.params) := by
  obtain ⟨_, hk', hnodup, -⟩ := checkDefn_closure.mp (checkDefn_of_retained h.checked hret)
  obtain rfl := mem_unique hk hk'
  refine ⟨hnodup, by simp, fun v hv => h.allocated.2 _ hret v (mem_append_left _ ?_)⟩
  simpa [entryTemps, hk] using (mem_named.mp hv).1

theorem legal_closure {closure : Closure} (hret : p.Retained (.closure k))
    (hk : p.closures[k.index]? = some closure) :
    closure.tail.Legal h.sig (named (closure.stored ++ closure.params)) := by
  obtain ⟨_, hk', -, htail⟩ := checkDefn_closure.mp (checkDefn_of_retained h.checked hret)
  obtain rfl := mem_unique hk hk'
  refine h.legal_tail htail (fun e => h.current.retained_of_closure hret hk)
    (fun c hc => h.declared _ hret c (by simpa [ctors, hk] using hc)) fun t ht hw => ?_
  refine mem_named.mpr ⟨?_, hw⟩
  simpa [entryTemps, hk] using h.wellScoped _ hret t (by simpa [openTemps, hk] using ht)

end Lawful

end Program

namespace Value

mutual

/-- Is the value built from declared constructors and known closures, with all their fields? -/
def Legal (σ : Signature) : Value → Prop
  | data c fields => σ.ctor c ∧ fields.length = c.arity ∧ AllLegal σ fields
  | closure k stored => σ.closure k = some stored.length ∧ AllLegal σ stored
  | word _ | flag _ | external _ => True

def AllLegal (σ : Signature) : List Value → Prop
  | [] => True
  | v :: vs => Legal σ v ∧ AllLegal σ vs

end

theorem allLegal_iff {σ : Signature} {vs : List Value} : AllLegal σ vs ↔ ∀ v ∈ vs, v.Legal σ := by
  induction vs with
  | nil => simp [AllLegal]
  | cons v vs ih => simp [AllLegal, ih]

end Value

def Env.Legal (σ : Signature) (env : Env) : Prop := ∀ ⦃t v⦄, env.lookup t = some v → v.Legal σ

theorem Env.Legal.nil (σ : Signature) : Env.Legal σ [] := by simp [Env.Legal]

theorem Env.Legal.bind {σ : Signature} {env : Env} (h : env.Legal σ) (vars : List Temp)
    {vals : List Value} (hvals : ∀ v ∈ vals, v.Legal σ) : (env.bind vars vals).Legal σ :=
  fun _ _ hv => (Env.lookup_bind hv).elim (hvals _) fun h' => h h'

section Legal

variable {σ : Signature} {scope : List Temp} {env : Env} {tops : TopId → List Value → Prop}
  (htops : ∀ ⦃r⦄, σ.top r → ∀ ⦃vs⦄, tops r.top vs → ∀ v ∈ vs, v.Legal σ)
  (henv : env.Legal σ)

include htops henv

theorem Atom.Has.legal {a : Atom} (ha : a.Legal σ scope) {v : Value} (h : a.Has tops env v) :
    v.Legal σ := by
  cases a with
  | temp t => exact henv h
  | top r =>
    obtain ⟨vs, ht, hv⟩ := h
    exact htops ha ht v (mem_of_getElem? hv)
  | word | flag | external =>
    obtain rfl : v = _ := h
    simp [Value.Legal]

theorem Atom.HasAll.legal {as : List Atom} (has : ∀ a ∈ as, a.Legal σ scope) {vs : List Value}
    (h : Atom.HasAll tops env as vs) : ∀ v ∈ vs, v.Legal σ := by
  induction h with
  | nil => simp
  | cons ha _ ih =>
    rw [forall_mem_cons] at has
    exact forall_mem_cons.mpr ⟨ha.legal htops henv has.1, ih has.2⟩

theorem Tail.Simple.legal {t : Tail} (ht : t.Legal σ scope) {w w' : World} {e : Result}
    (h : t.Simple tops Allocates env w e w') : Ending.Each (Value.Legal σ) e := by
  cases t with
  | ret args =>
    obtain ⟨vs, hv, rfl, rfl⟩ := h
    exact hv.legal htops henv ht.atoms
  | data c args =>
    obtain ⟨vs, hv, rfl, rfl⟩ := h
    have hlegal : (Value.data c vs).Legal σ := ⟨ht.shaped.1, hv.length_eq ▸ ht.shaped.2,
      Value.allLegal_iff.mpr (hv.legal htops henv ht.atoms)⟩
    simpa [Ending.Each] using hlegal
  | closure k args =>
    obtain ⟨vs, v, hv, rfl, rfl, rfl⟩ := h
    have hlegal : (Value.closure k vs).Legal σ :=
      ⟨hv.length_eq ▸ ht.shaped, Value.allLegal_iff.mpr (hv.legal htops henv ht.atoms)⟩
    simpa [Ending.Each] using hlegal
  | sel c field a =>
    obtain ⟨c', fields, v, ha, hc, hf, rfl, rfl⟩ := h
    have hlegal := ha.legal htops henv (ht.atoms a (by simp [Tail.atoms]))
    have hv := Value.allLegal_iff.mp hlegal.2.2 v (mem_of_getElem? hf)
    simpa [Ending.Each] using hv
  | prim q args =>
    obtain ⟨vs, hv, hw⟩ := h
    exact Prim.effect_each (by rintro (_ | _) <;> exact trivial) hw
  | call | enter => exact h.elim

end Legal

namespace Program.Lawful

variable {p : Program} (h : p.Lawful)

section Tops

include h

theorem legal_top {t : TopId} {top : TopLevel} (hret : p.Retained (.top t))
    (ht : p.tops[t.index]? = some top) : top.tail.Legal h.sig top.tail.temps := by
  obtain ⟨_, ht', htail, -⟩ := checkDefn_top.mp (checkDefn_of_retained h.checked hret)
  obtain rfl := mem_unique ht ht'
  exact h.legal_tail htail (fun e => h.current.retained_of_top hret ht)
    (fun c hc => h.declared _ hret c (by simpa [ctors, ht] using hc)) fun _ hx _ => hx

theorem topWithin_legal {height : Nat} {t : TopId} {vs : List Value} (hret : p.Retained (.top t))
    (ht : p.topWithin height t vs) : ∀ v ∈ vs, v.Legal h.sig := by
  induction height generalizing t vs with
  | zero => exact ht.elim
  | succ height ih =>
    obtain ⟨top, htop, -, hs⟩ := ht
    exact (hs {}).legal (fun r hr vs hvs => ih hr.1 hvs) (.nil _) (h.legal_top hret htop)

end Tops

/-- The roles of the definitions that were there at the start. -/
def roles : Roles where
  block b := (h.sig.block b).map fun _ => .original
  closure k := (h.sig.closure k).map fun _ => .original
  rank _ := 0
  closureRank _ := 0
  sig := h.sig

/-- What the definitions of the program do with legal values, by these rules. -/
def base (r : Rules) : Meaning where
  top := p.HasTop
  alloc := Allocates
  jump depth cost b args w e w' := h.sig.block b = some args.length ∧
    (∀ v ∈ args, v.Legal h.sig) ∧ p.Runs r depth cost b args w e w'
  enter room cost v args w e w' := v.Legal h.sig ∧ (∀ v ∈ args, v.Legal h.sig) ∧
    ∃ calls, (p.meaning r calls).enter room cost v args w e w'

/-- The standard that the program sets by these rules. -/
def standard (r : Rules) (fits : List Ctor → Ctor → Prop) : Standard where
  base := h.base r
  fits := fits
  ref := h.sig.top
  deepens := by
    refine ⟨fun ⟨hb, hargs, calls, hj⟩ => ⟨hb, hargs, calls, ?_⟩,
      fun ⟨hv, hargs, calls, he⟩ => ⟨hv, hargs, calls, ?_⟩⟩
    · exact (p.meaning_deepens r calls).jump hj
    · exact (p.meaning_deepens r calls).enter he

theorem roles_block {b : BlockId} {role : BlockRole} (hb : h.roles.block b = some role) :
    role = .original ∧ p.Retained (.block b) ∧ ∃ block, p.blocks[b.index]? = some block := by
  obtain ⟨n, hn, rfl⟩ := map_eq_some_iff.mp hb
  obtain ⟨hret, block, hblock, -⟩ := h.sig_block.mp hn
  exact ⟨rfl, hret, block, hblock⟩

theorem roles_closure {k : ClosureId} {role : ClosureRole} (hk : h.roles.closure k = some role) :
    role = .original ∧ p.Retained (.closure k) ∧ ∃ closure,
      p.closures[k.index]? = some closure := by
  obtain ⟨n, hn, rfl⟩ := map_eq_some_iff.mp hk
  obtain ⟨hret, closure, hclosure, -⟩ := h.sig_closure.mp hn
  exact ⟨rfl, hret, closure, hclosure⟩

/-- Runs that are so many calls deep give legal results. -/
structure Closed (r : Rules) (calls : Nat) : Prop where
  jump : ∀ ⦃depth cost b args w e w'⦄, h.sig.block b = some args.length →
    (∀ v ∈ args, v.Legal h.sig) → (p.meaning r calls).jump depth cost b args w e w' →
      Ending.Each (Value.Legal h.sig) e
  enter : ∀ ⦃room cost v args w e w'⦄, v.Legal h.sig → (∀ v ∈ args, v.Legal h.sig) →
    (p.meaning r calls).enter room cost v args w e w' → Ending.Each (Value.Legal h.sig) e

section Runs

variable {r : Rules} {calls : Nat} {scope : List Temp} {env : Env} {u : Use} {w w' : World}
  {e : Result}

theorem hasTop_legal ⦃t : TopRef⦄ (ht : h.sig.top t) ⦃vs : List Value⦄ (hvs : p.HasTop t.top vs) :
    ∀ v ∈ vs, v.Legal h.sig := by
  obtain ⟨height, hheight⟩ := hvs
  exact h.topWithin_legal ht.1 hheight

variable (fits : List Ctor → Ctor → Prop)

theorem call_runs (hclosed : h.Closed r calls) (henv : env.Legal h.sig) {c : Call}
    (hc : c.Legal h.sig scope) {depth : Nat}
    (hrun : c.Runs (p.meaning r calls) depth env u w e w') :
    c.Runs ((h.standard r fits).meaning h.roles) depth env u w e w' ∧
      Ending.Each (Value.Legal h.sig) e := by
  obtain ⟨vs, n, hvs, rfl, hj⟩ := hrun
  rw [meaning_top] at hvs
  have hlegal := hvs.legal h.hasTop_legal henv hc.atoms
  have hslots : h.sig.block c.target = some vs.length := hvs.length_eq ▸ hc.shaped
  have hrole : h.roles.block c.target = some .original := by simp [roles, hslots]
  exact ⟨⟨vs, n, hvs, by rw [meaning_rank]; rfl, .original hrole ⟨hslots, hlegal, calls, hj⟩⟩,
    hclosed.jump hslots hlegal hj⟩

theorem tail_runs (hclosed : h.Closed r calls) (henv : env.Legal h.sig) {t : Tail}
    (ht : t.Legal h.sig scope) {room : Nat} (hrun : t.Runs (p.meaning r calls) room env u w e w') :
    t.Runs ((h.standard r fits).meaning h.roles) room env u w e w' ∧
      Ending.Each (Value.Legal h.sig) e := by
  cases t with
  | call c =>
    obtain ⟨depth, rfl, hc⟩ := hrun
    obtain ⟨hc', he⟩ := h.call_runs fits hclosed henv ht hc
    exact ⟨⟨depth, rfl, hc'⟩, he⟩
  | enter f args =>
    obtain ⟨v, vs, n, hf, hvs, rfl, hv⟩ := hrun
    rw [meaning_top] at hf hvs
    have hlegal := hf.legal h.hasTop_legal henv (ht.atoms f (by simp [Tail.atoms]))
    have hlegals := hvs.legal h.hasTop_legal henv fun a ha => ht.atoms a (by simp [Tail.atoms, ha])
    refine ⟨⟨v, vs, n, hf, hvs, rfl, ?_⟩, hclosed.enter hlegal hlegals hv⟩
    obtain ⟨k, stored, rfl⟩ : ∃ k stored, v = .closure k stored := by
      cases calls with
      | zero => exact hv.elim
      | succ calls =>
        obtain ⟨k, stored, _, _, rfl, -⟩ := hv
        exact ⟨k, stored, rfl⟩
    have hrole : h.roles.closure k = some .original := by simp [roles, hlegal.1]
    exact .originalClosure hrole ⟨hlegal, hlegals, calls, hv⟩
  | ret | data | closure | sel | prim =>
    obtain ⟨rfl, hs⟩ := hrun
    rw [meaning_top, meaning_alloc] at hs
    exact ⟨⟨rfl, hs⟩, hs.legal h.hasTop_legal henv ht⟩

theorem code_runs (hfits : ∀ ⦃ctors c⦄, p.Declares c → r.fits ctors c → fits ctors c)
    (hclosed : h.Closed r calls) (henv : env.Legal h.sig) {code : Code}
    (hcode : code.Legal h.sig scope) {depth cost rank : Nat}
    (hrun : code.Runs (p.meaning r calls) r depth cost rank env w e w') :
    (h.standard r fits).Runs h.roles depth cost rank code env w e w' ∧
      Ending.Each (Value.Legal h.sig) e := by
  induction code generalizing scope env w cost rank with
  | done t =>
    obtain ⟨u, hu, ht⟩ := hrun
    obtain ⟨ht', he⟩ := h.tail_runs fits hclosed henv hcode ht
    exact ⟨⟨u, hu, ht'⟩, he⟩
  | bind vars t rest ih =>
    obtain ⟨hlegal, -, hlegalr⟩ := hcode
    obtain ⟨-, u, ⟨hu, rfl, ht⟩ | ⟨vs, w1, left, hl, ht, hlen, hrest⟩⟩ := hrun
    · exact ⟨⟨False.elim, u, .inl ⟨hu, rfl, (h.tail_runs fits hclosed henv hlegal ht).1⟩⟩, trivial⟩
    · obtain ⟨ht', hvs⟩ := h.tail_runs fits hclosed henv hlegal ht
      obtain ⟨hrest', he⟩ := ih (henv.bind vars hvs) hlegalr hrest
      refine ⟨⟨False.elim, u, .inr ⟨vs, w1, left, ?_, ht', hlen, hrest'⟩⟩, he⟩
      simp only [Rules.free]
      omega
  | assert a ctor rest ih =>
    obtain ⟨c, fields, left, ha, hc, hl, hrest⟩ := hrun
    rw [meaning_top] at ha
    obtain ⟨hrest', he⟩ := ih henv hcode.2.2 hrest
    refine ⟨⟨c, fields, left, ha, hc, ?_, hrest'⟩, he⟩
    simp only [Rules.free]
    omega
  | branch test yes no =>
    obtain ⟨b, u, ha, hu, hc⟩ := hrun
    rw [meaning_top] at ha
    have hlegal : (if b then yes else no).Legal h.sig scope := by
      cases b
      · exact hcode.2.2
      · exact hcode.2.1
    obtain ⟨hc', he⟩ := h.call_runs fits hclosed henv hlegal hc
    exact ⟨⟨b, u, ha, hu, hc'⟩, he⟩
  | switch a alts =>
    obtain ⟨c, fields, taken, u, ha, hsel, hf, hu, hc⟩ := hrun
    rw [meaning_top] at ha
    have hv := ha.legal h.hasTop_legal henv hcode.1
    obtain ⟨hc', he⟩ := h.call_runs fits hclosed henv
      (hcode.2.1 taken (Alts.mem_calls_of_select hsel)) hc
    exact ⟨⟨c, fields, taken, u, ha, hsel, hfits hv.1 hf, hu, hc'⟩, he⟩

end Runs

theorem closed (r : Rules) (calls : Nat) : h.Closed r calls := by
  induction calls with
  | zero => exact ⟨fun _ _ _ _ _ _ _ _ _ h => h.elim, fun _ _ _ _ _ _ _ _ _ h => h.elim⟩
  | succ calls ih =>
    refine ⟨?_, ?_⟩
    · rintro depth cost b args w e w' hslots hargs ⟨block, hb, -, hrun⟩
      have hret := (h.sig_block.mp hslots).1
      exact (h.code_runs r.fits (fun _ _ _ hf => hf) ih ((Env.Legal.nil _).bind _ hargs)
        (h.legal_block hret hb) hrun).2
    · rintro room cost v args w e w' hv hargs ⟨k, stored, closure, u, rfl, hk, -, -, hrun⟩
      have hret := (h.sig_closure.mp hv.1).1
      have hall : ∀ v ∈ stored ++ args, v.Legal h.sig :=
        forall_mem_append.mpr ⟨Value.allLegal_iff.mp hv.2, hargs⟩
      exact (h.tail_runs r.fits ih ((Env.Legal.nil _).bind _ hall)
        (h.legal_closure hret hk) hrun).2

theorem fulfils_closure (r : Rules) (fits : List Ctor → Ctor → Prop) {k : ClosureId}
    {closure : Closure} (hret : p.Retained (.closure k))
    (hk : p.closures[k.index]? = some closure) : closure.Fulfils (h.standard r fits) h.roles k := by
  refine ⟨h.legal_closure hret hk, fun roles' hle room cost stored args w e w' he => ?_⟩
  have hrole : roles'.closure k = some .original :=
    hle.closure (by simp [roles, signature, hret, hk])
  cases he with
  | originalClosure _ he =>
    obtain ⟨hv, hargs, _ | calls, hrun⟩ := he
    · exact hrun.elim
    · obtain ⟨_, _, _, u, ⟨⟩, hk', hlen, hu, hrun⟩ := hrun
      obtain rfl := mem_unique hk hk'
      have hall : ∀ v ∈ stored ++ args, v.Legal h.sig :=
        forall_mem_append.mpr ⟨Value.allLegal_iff.mp hv.2, hargs⟩
      have htail := (h.tail_runs fits (h.closed r calls) ((Env.Legal.nil _).bind _ hall)
        (h.legal_closure hret hk) hrun).1
      exact ⟨hlen, u, hu.mono le_rfl (Nat.zero_le _),
        htail.mono (Standard.meaning_le _ hle)⟩
  | forward hk' => simp [hrole] at hk'

section Start

variable {r : Rules} {fits : List Ctor → Ctor → Prop}
  (hfits : ∀ ⦃ctors c⦄, p.Declares c → r.fits ctors c → fits ctors c)

include hfits

theorem fulfils_block {b : BlockId} {block : Block} (hret : p.Retained (.block b))
    (hb : p.blocks[b.index]? = some block) : block.Fulfils (h.standard r fits) h.roles b := by
  refine ⟨h.legal_block hret hb, fun roles' hle depth cost args w e w' hj => ?_⟩
  have hrole : h.roles.block b = some .original := by simp [roles, signature, hret, hb]
  cases hj with
  | original _ hj =>
    obtain ⟨hslots, hargs, _ | calls, hrun⟩ := hj
    · exact hrun.elim
    · obtain ⟨_, hb', hlen, hrun⟩ := hrun
      obtain rfl := mem_unique hb hb'
      have hcode := (h.code_runs fits hfits (h.closed r calls) ((Env.Legal.nil _).bind _ hargs)
        (h.legal_block hret hb) hrun).1
      exact ⟨hlen, hcode.mono (Standard.meaning_le _ hle) (.refl _) le_rfl (Nat.zero_le _)⟩
  | handoff hb' | handoffHalts hb' | fork hb' => simp [hle.block hrole] at hb'

/-- The program is faithful to the standard that it sets, if what is noted of it is true. -/
theorem faithful (hpure : p.PureTops) (hplain : p.Underived) {f : DefnId → Bool}
    (hf : ∀ ⦃b⦄, p.Retained (.block b) → f (.block b) = true →
      ∀ ⦃depth cost args w e w'⦄, p.Runs r depth cost b args w e w' → e = .halted) :
    Faithful (h.standard r fits) h.roles (fun _ => False) (p.noted f) where
  temps := rfl
  ctor _ := .rfl
  ref _ := id
  role b n hb := ⟨.original, by simp [roles, show h.sig.block b = some n from hb]⟩
  block b role hb := by
    obtain ⟨rfl, hret, block, hblock⟩ := h.roles_block hb
    have hparams := h.binders_block hret hblock
    have hful := h.fulfils_block hfits hret hblock
    have hnoted := getElem?_blocks_noted p f b
    rw [hblock] at hnoted
    refine ⟨_, hnoted, ?_, hparams, fun _ => ⟨hful.legal, hful.meets⟩⟩
    exact h.sig_block.mpr ⟨hret, block, hblock, rfl⟩
  closureRole k n hk := ⟨.original, by simp [roles, show h.sig.closure k = some n from hk]⟩
  closure k role hk := by
    obtain ⟨rfl, hret, closure, hclosure⟩ := h.roles_closure hk
    have hparams := h.binders_closure hret hclosure
    have hful := h.fulfils_closure r fits hret hclosure
    have hnoted := getElem?_closures_noted p f k
    rw [hclosure] at hnoted
    refine ⟨_, hnoted, ?_, hparams, hful.legal, hful.meets⟩
    exact h.sig_closure.mpr ⟨hret, closure, hclosure, rfl⟩
  derived b role block d _ hblock hd := by
    rw [getElem?_blocks_noted, map_eq_some_iff] at hblock
    obtain ⟨block, hblock, rfl⟩ := hblock
    simp [hplain.1 block (Array.mem_of_getElem? hblock)] at hd
  coherent := ⟨fun d x b hd => by cases (h.roles_block hd).1⟩
  pure top htop := by
    obtain ⟨i, hi⟩ := Array.mem_iff_getElem?.mp htop
    rw [getElem?_tops_noted p f ⟨i⟩, map_eq_some_iff] at hi
    obtain ⟨top, ht, rfl⟩ := hi
    exact hpure top (Array.mem_of_getElem? ht)
  top t vs ht := by
    refine HasTop.of_same (fun u top htop => ?_) ht
    have hnoted := getElem?_tops_noted p f u
    rw [htop] at hnoted
    exact ⟨_, hnoted, rfl, rfl⟩
  flags b role block hb hblock hflag roles' hle depth cost args w e w' hj := by
    obtain ⟨rfl, hret, -⟩ := h.roles_block hb
    rw [getElem?_blocks_noted, map_eq_some_iff] at hblock
    obtain ⟨block, hblock, rfl⟩ := hblock
    cases hj with
    | original _ hj => exact hf hret hflag hj.2.2
    | handoff hb' | handoffHalts hb' | fork hb' => simp [hle.block hb] at hb'

end Start

/-- A program that is faithful to the standard has the runs of entrypoints, if it may take enough
steps. -/
theorem run {r : Rules} {fits : List Ctor → Ctor → Prop} {roles : Roles} {q : Program}
    (hq : Faithful (h.standard r fits) roles (fun _ => False) q) (hle : h.roles.Le roles)
    {b : BlockId} (hb : .block b ∈ p.entrypoints) {args : List Word} {depth limit : Nat}
    {e : Result} {w' : World} (hrun : p.Runs r depth limit b (args.map .word) {} e w') :
    ∃ n, ∀ m, n ≤ m → q.runNested depth b args m = .ok (e.outcome w') := by
  have hslots : h.sig.block b = some (args.map Value.word).length := by
    refine h.sig_block.mpr ⟨h.current.retained_root hb hrun.defines, ?_⟩
    obtain ⟨_ | calls, hrun⟩ := hrun
    · exact hrun.elim
    · obtain ⟨block, hblock, hlen, -⟩ := hrun
      exact ⟨block, hblock, hlen⟩
  have hrole : roles.block b = some .original := hle.block (by simp [Lawful.roles, hslots])
  have hlegal : ∀ v ∈ args.map Value.word, v.Legal h.sig := by simp [Value.Legal]
  obtain ⟨n, hrun'⟩ := hq.realises.runs (.original hrole ⟨hslots, hlegal, hrun⟩)
  have hends : (e.outcome w').termination ≠ .diverged := by cases e <;> simp [Ending.outcome]
  refine ⟨n, fun m hm => ?_⟩
  rw [runNested_eq_ok_iff hq.pure hends]
  exact ⟨e, w', Runs.more hm hrun', rfl⟩

end Program.Lawful

end MonadicIR
