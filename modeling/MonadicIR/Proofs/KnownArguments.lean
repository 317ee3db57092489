import MonadicIR.Proofs.Correspondence
import MonadicIR.Proofs.SharedArguments
import MonadicIR.Proofs.Splicing

namespace MonadicIR

open Program List

/-- Has an allocation as many fields as its constructor or its closure asks for? -/
def Value.Whole (p : Program) : Value → Prop
  | data c fields => fields.length = c.arity
  | closure k stored =>
    ∃ closure, p.closures[k.index]? = some closure ∧ closure.stored.length = stored.length
  | word _ | flag _ | external _ => True

def Env.Whole (p : Program) (env : Env) : Prop := ∀ ⦃t v⦄, env.lookup t = some v → v.Whole p

/-- Is the recorded allocation the value, or has the value been built with the recorded constructor?
Facts of other tails are not looked at. -/
def Fact.HoldsOf (tops : TopId → List Value → Prop) (env : Env) : Fact → Value → Prop
  | tail (.data c args), v => ∃ vs, Atom.HasAll tops env args vs ∧ v = .data c vs
  | tail (.closure k args), v => ∃ vs, Atom.HasAll tops env args vs ∧ v = .closure k vs
  | ctor c, v => ∃ c' fields, v = .data c' fields ∧ c'.same c = true
  | tail _, _ => True

/-- Do the facts hold of the variables that have a value? -/
def Facts.HoldIn (tops : TopId → List Value → Prop) (env : Env) (fs : Facts) : Prop :=
  ∀ ⦃t fact v⦄, fs.lookup t = some fact → env.lookup t = some v → fact.HoldsOf tops env v

/-- The values that are passed where an argument of this shape has the value. -/
def ArgShape.Gives (p : Program) : ArgShape → List Value → Value → Prop
  | value a, us, v => us = [] ∧ ∀ tops env, a.Has tops env v
  | unknown, us, v => us = [v]
  | tag c, us, v => us = [v] ∧ ∃ c' fields, v = .data c' fields ∧ c'.same c = true
  | data c, us, v => us.length = c.arity ∧ v = .data c us
  | closure k, us, v =>
    (∃ closure, p.closures[k.index]? = some closure ∧ closure.stored.length = us.length) ∧
      v = .closure k us

/-- What is passed has values, and they give the value of the argument. -/
def ArgShape.StandsFor (p : Program) (env : Env) (shape : ArgShape) (passed : List Atom)
    (v : Value) : Prop :=
  ∃ us, Atom.HasAll p.HasTop env passed us ∧ shape.Gives p us v

section Known

variable {p : Program} {fs : Facts} {env : Env} {a : Atom} {v : Value}
  {tops : TopId → List Value → Prop}

theorem Atom.Has.of_nil (h : a.Has tops [] v) : a.Has tops env v := by
  cases a with
  | temp t => cases h
  | word | flag | top | external => exact h

theorem Program.hasTop_topAllocator {r : TopRef} {t : Tail} (ht : p.topAllocator? r = some t)
    (hv : (Atom.top r).Has p.HasTop env v) :
    (Fact.tail t).HoldsOf p.HasTop env v ∧ t.isAllocator ∧
      ∃ top, p.tops[r.top.index]? = some top ∧ top.tail = t := by
  obtain ⟨vs, ⟨height, hvs⟩, hindex⟩ := hv
  cases height with
  | zero => cases hvs
  | succ height =>
    obtain ⟨top, htop, -, hsimple⟩ := hvs
    simp only [topAllocator?, htop, Option.ite_none_right_eq_some, Option.some.injEq,
      Bool.and_eq_true, beq_iff_eq] at ht
    obtain ⟨⟨⟨-, hzero⟩, halloc⟩, rfl⟩ := ht
    refine ⟨?_, halloc, top, htop, rfl⟩
    have hall {args : List Atom} {ws : List Value} (h : Atom.HasAll (p.topWithin height)
      [] args ws) :
        Atom.HasAll p.HasTop env args ws := h.imp fun _ _ ha =>
          (ha.mono fun _ _ h => ⟨height, h⟩).of_nil
    generalize top.tail = t at hsimple halloc
    cases t with
    | data c args =>
      obtain ⟨ws, hws, ⟨⟩, -⟩ := hsimple {}
      rw [hzero] at hindex
      exact ⟨ws, hall hws, (Option.some.inj hindex).symm⟩
    | closure k args =>
      obtain ⟨ws, _, hws, rfl, ⟨⟩, -⟩ := hsimple {}
      rw [hzero] at hindex
      exact ⟨ws, hall hws, (Option.some.inj hindex).symm⟩
    | ret | call | enter | sel | prim => cases halloc

theorem Fact.HoldsOf.ctor {fact : Fact} (h : fact.HoldsOf tops env v) {c : Ctor}
    (hc : fact.ctor? = some c) : ∃ c' fields, v = .data c' fields ∧ c'.same c = true := by
  cases fact with
  | ctor c' =>
    obtain rfl := Option.some.inj hc
    exact h
  | tail t =>
    cases t with
    | data c' args =>
      obtain rfl := Option.some.inj hc
      obtain ⟨vs, -, rfl⟩ := h
      exact ⟨_, vs, rfl, Ctor.same_refl _⟩
    | ret | call | enter | closure | sel | prim => cases hc

theorem Fact.HoldsOf.whole {t : Tail} (h : (Fact.tail t).HoldsOf tops env v) (ht : t.isAllocator)
    (hshape : p.checkShape t = .ok ()) :
    v.Whole p := by
  cases t with
  | data c args =>
    obtain ⟨vs, hvs, rfl⟩ := h
    obtain ⟨-, -, hcount⟩ := bind_eq_ok_iff.mp hshape
    exact hvs.length_eq.symm.trans (checkCount_eq_ok_iff.mp hcount).symm
  | closure k args =>
    obtain ⟨vs, hvs, rfl⟩ := h
    obtain ⟨closure, hclosure, hlen⟩ := checkShape_closure.mp hshape
    exact ⟨closure, hclosure, hlen.trans hvs.length_eq⟩
  | ret | call | enter | sel | prim => cases ht

variable (hchecked : ∀ d ∈ p.allDefns, p.checkDefn d = .ok ()) (hfs : fs.HoldIn p.HasTop env)
  (henv : env.Whole p) (ha : a.Has p.HasTop env v)
include hchecked hfs henv ha

theorem Facts.HoldIn.about {fact : Fact} (hfact : fs.about p a = some fact) :
    fact.HoldsOf p.HasTop env v ∧ v.Whole p := by
  cases a with
  | temp t => exact ⟨hfs hfact ha, henv ha⟩
  | top r =>
    obtain ⟨t, ht, rfl⟩ := Option.map_eq_some_iff.mp hfact
    obtain ⟨hholds, halloc, top, htop, rfl⟩ := hasTop_topAllocator ht ha
    have hd := mem_allDefns.mpr (defines_top_iff.mpr ⟨top, htop⟩)
    obtain ⟨top', htop', hcheck, -⟩ := checkDefn_top.mp (hchecked _ hd)
    obtain rfl := Option.mem_unique htop htop'
    exact ⟨hholds, hholds.whole halloc (checkTail_eq_ok_iff.mp hcheck).2⟩
  | word | flag | external => cases hfact

/-- What is passed in place of an argument has values, and they give the value of the argument. -/
theorem Facts.HoldIn.argShape (constants : Bool) : (fs.argShape p constants a).1.StandsFor p env
    (fs.argShape p constants a).2 v := by
  have hplain : ∀ plain : ArgShape × List Atom,
      plain = (if constants && a.isConstant then (.value a, []) else (.unknown, [a])) →
        plain.1.StandsFor p env plain.2 v := by
    rintro _ rfl
    split
    case isTrue hconst =>
      refine ⟨[], .nil, rfl, fun tops env' => ?_⟩
      cases a with
      | word | flag => exact ha
      | temp | top | external => simp [Atom.isConstant] at hconst
    case isFalse => exact ⟨[v], .cons ha .nil, rfl⟩
  have habout {fact : Fact} : fs.about p a = some fact → fact.HoldsOf p.HasTop env v ∧ v.Whole p :=
    hfs.about hchecked henv ha
  unfold Facts.argShape
  generalize hdef : (if constants && a.isConstant then _ else _) = plain
  split
  case h_1 c field fields hfact =>
    obtain ⟨⟨vs, hvs, rfl⟩, hwhole⟩ := habout hfact
    exact ⟨vs, hvs, hwhole, rfl⟩
  case h_2 k fields hfact =>
    obtain ⟨⟨vs, hvs, rfl⟩, hwhole⟩ := habout hfact
    exact ⟨vs, hvs, hwhole, rfl⟩
  case h_3 fact hdata hclosure hfact =>
    cases hctor : fact.ctor? with
    | none => exact hplain plain hdef.symm
    | some c => exact ⟨[v], .cons ha .nil, rfl, (habout hfact).1.ctor hctor⟩
  case h_4 => exact hplain plain hdef.symm

end Known

namespace Prologue

/-- The variables that are bound before the body. -/
def vars (x : Prologue) : List Temp := x.params ++ x.inits.map Prod.fst

/-- The variables are different ones, with numbers in a range. -/
structure New (x : Prologue) (n n' : Nat) : Prop where
  nodup : x.vars.Nodup
  bounds : ∀ u ∈ x.vars, n ≤ u.index ∧ u.index < n'
  le : n ≤ n'

theorem New.nil (values : List Atom) (n : Nat) : Prologue.New ⟨[], [], [], values⟩ n n :=
  ⟨nodup_nil, by simp [vars], Nat.le_refl n⟩

theorem New.append {x y : Prologue} {n n' n'' : Nat} (hx : x.New n n') (hy : y.New n' n'') :
    (x.append y).New n n'' := by
  have hperm : (x.append y).vars.Perm (x.vars ++ y.vars) := by
    simp only [vars, Prologue.append, map_append, append_assoc]
    refine .append_left _ ?_
    rw [← append_assoc, ← append_assoc]
    exact .append_right _ perm_append_comm
  have hle := hx.le
  have hle' := hy.le
  refine ⟨hperm.nodup_iff.mpr (nodup_append'.mpr ⟨hx.nodup, hy.nodup, fun u hu hu' => ?_⟩),
    fun u hu => ?_, le_trans hle hle'⟩
  · have := (hx.bounds u hu).2
    have := (hy.bounds u hu').1
    omega
  · obtain hu | hu := mem_append.mp (hperm.mem_iff.mp hu)
    · have := hx.bounds u hu
      omega
    · have := hy.bounds u hu
      omega

/-- Allocations are rebuilt one after the other. -/
inductive Rebuilds (tops : TopId → List Value → Prop) : Env → List (Temp × Tail) → Env → Prop where
  | nil {env} : Rebuilds tops env [] env
  | cons {env env' v t val rest} (hval : ∀ w, t.Simple tops Allocates env w (.returned [val]) w)
      (hrest : Rebuilds tops (env.bind [v] [val]) rest env') : Rebuilds tops env
        ((v, t) :: rest) env'

namespace Rebuilds

variable {tops : TopId → List Value → Prop} {env env' env'' : Env} {inits inits' :
  List (Temp × Tail)}

variable (h : Rebuilds tops env inits env')

include h

theorem append (h' : Rebuilds tops env' inits' env'') :
    Rebuilds tops env (inits ++ inits') env'' := by
  induction h with
  | nil => exact h'
  | cons hval _ ih => exact .cons hval (ih h')

theorem lookup_eq {t : Temp} (ht : t ∉ inits.map Prod.fst) :
    env'.lookup t = env.lookup t := by
  induction h with
  | nil => rfl
  | cons _ _ ih =>
    rw [map_cons, mem_cons, not_or] at ht
    exact (ih ht.2).trans (Env.lookup_bind_of_not_mem (by simpa using ht.1))

theorem sub (hnew : ∀ u ∈ inits.map Prod.fst, env.lookup u = none) :
    env.Sub env' := by
  intro t v ht
  rw [h.lookup_eq, ht]
  intro hmem
  rw [hnew t hmem] at ht
  cases ht

theorem keepsBelow {n : Nat} (hinits : ∀ u ∈ inits.map Prod.fst, u.index < n) (henv : env.Below n) :
    env'.Below n := by
  induction h with
  | nil => exact henv
  | @cons env env' v t val rest _ _ ih =>
    rw [map_cons, forall_mem_cons] at hinits
    refine ih hinits.2 (henv.bind (fun u hu => ?_) [val])
    obtain rfl := mem_singleton.mp (mem_named.mp hu).1
    exact hinits.1

end Rebuilds

/-- The constructors that are asserted have been used. -/
def AssertsHold (env : Env) (asserts : List (Temp × Ctor)) : Prop :=
  ∀ i ∈ asserts, ∃ c fields, env.lookup i.1 = some (.data c fields) ∧ c.same i.2 = true

theorem AssertsHold.nil (env : Env) : AssertsHold env [] := forall_mem_nil _

theorem AssertsHold.sub {env env' : Env} {asserts : List (Temp × Ctor)}
    (h : AssertsHold env asserts) (hsub : env.Sub env') : AssertsHold env' asserts := by
  intro i hi
  obtain ⟨c, fields, hlookup, hsame⟩ := h i hi
  exact ⟨c, fields, hsub hlookup, hsame⟩

/-- Where the parameters have the first values, what stands for the parameters of the source gets
the second ones. -/
structure Restores (tops : TopId → List Value → Prop) (x : Prologue) (us vs : List Value) :
    Prop where
  length : x.params.length = us.length
  steps : x.inits.length + x.asserts.length ≤ vs.length
  runs : ∀ ⦃env : Env⦄, x.params.map env.lookup = us.map some →
    (∀ u ∈ x.inits.map Prod.fst, env.lookup u = none) → ∃ env', Rebuilds tops env x.inits env' ∧
      AssertsHold env' x.asserts ∧ Atom.HasAll tops env' x.values vs

namespace Restores

variable {tops : TopId → List Value → Prop} {u : Temp} {us : List Value} {v : Value}

protected theorem append {x y : Prologue} {us' vs vs' : List Value}
    (hx : x.Restores tops us vs) (hy : y.Restores tops us' vs')
    (hdisjoint : ∀ u ∈ y.inits.map Prod.fst, u ∉ x.inits.map Prod.fst) :
    (x.append y).Restores tops (us ++ us') (vs ++ vs') := by
  have hlen := hx.length
  have hsteps := hx.steps
  have hsteps' := hy.steps
  refine ⟨by simp [Prologue.append, hlen, hy.length], ?_, fun env hparams hnew => ?_⟩
  · simp only [Prologue.append, length_append]
    omega
  · simp only [Prologue.append, map_append, forall_mem_append] at hparams hnew
    obtain ⟨hparams, hparams'⟩ := append_inj hparams (by simpa using hlen)
    obtain ⟨env1, hrebuilds, hasserts, hvalues⟩ := hx.runs hparams hnew.1
    have hsub := hrebuilds.sub hnew.1
    have hnew' : ∀ u ∈ y.inits.map Prod.fst, env1.lookup u = none := fun u hu =>
      (hrebuilds.lookup_eq (hdisjoint u hu)).trans (hnew.2 u hu)
    obtain ⟨env2, hrebuilds', hasserts', hvalues'⟩ := hy.runs (hsub.map_lookup hparams') hnew'
    have hsub' := hrebuilds'.sub hnew'
    refine ⟨env2, hrebuilds.append hrebuilds', ?_, ?_⟩
    · exact forall_mem_append.mpr ⟨hasserts.sub hsub', hasserts'⟩
    · exact rel_append (hvalues.imp fun _ _ => Atom.Has.sub hsub') hvalues'

theorem param {asserts : List (Temp × Ctor)} (hlen : asserts.length ≤ 1)
    (hasserts : ∀ ⦃env : Env⦄, env.lookup u = some v → AssertsHold env asserts) :
    Restores tops ⟨[u], [], asserts, [.temp u]⟩ [v] [v] := by
  refine ⟨rfl, by simpa using hlen, fun env hparams _ => ⟨env, .nil, ?_, ?_⟩⟩
  · exact hasserts (List.cons.inj hparams).1
  · exact .cons (List.cons.inj hparams).1 .nil

theorem rebuilt {fields : List Temp} {t : Tail} (hlen : fields.length = us.length)
    (hu : u.isWildcard = false)
    (ht : ∀ ⦃env : Env⦄, fields.map env.lookup = us.map some →
      ∀ w, t.Simple tops Allocates env w (.returned [v]) w) :
    Restores tops ⟨fields, [(u, t)], [], [.temp u]⟩ us [v] := by
  refine ⟨hlen, Nat.le_refl 1, fun env hparams _ => ?_⟩
  have hlookup : (env.bind [u] [v]).lookup u = some v := Env.lookup_put.trans (if_pos ⟨rfl, hu⟩)
  exact ⟨_, .cons (ht hparams) .nil, .nil _, .cons hlookup .nil⟩

end Restores

section Runs

variable {p : Program} {calls depth cost : Nat} {env env' : Env} {code : Code} {w w' : World}
  {e : Result}

theorem Rebuilds.runs {inits : List (Temp × Tail)} (h : Rebuilds p.HasTop env inits env')
    (hcode : code.Runs (p.counted calls) .machine depth cost 0 env' w e w') :
    (inits.foldr (fun i code => .bind [i.1] i.2 code) code).Runs (p.counted calls) .machine depth
      (inits.length + cost) 0 env w e w' := by
  induction h with
  | nil => simpa using hcode
  | @cons env env' v t val rest hval _ ih =>
    refine ⟨False.elim, .nothing, .inr ⟨[val], w, rest.length + cost, ?_, ?_, rfl, ih hcode⟩⟩
    · simp only [Rules.machine, Use.cost_nothing, length_cons]
      omega
    · exact runs_of_simple (hval w)

theorem AssertsHold.runs {asserts : List (Temp × Ctor)} (h : AssertsHold env asserts)
    (hcode : code.Runs (p.counted calls) .machine depth cost 0 env w e w') :
    (asserts.foldr (fun i code => .assert (.temp i.1) i.2 code) code).Runs
      (p.counted calls) .machine depth (asserts.length + cost) 0 env w e w' := by
  induction asserts with
  | nil => simpa using hcode
  | cons i asserts ih =>
    obtain ⟨⟨c, fields, hlookup, hsame⟩, hrest⟩ := forall_mem_cons.mp h
    refine ⟨c, fields, asserts.length + cost, hlookup, hsame, ?_, ih hrest⟩
    simp only [Rules.machine, length_cons]
    omega

end Runs

theorem boundTemps_wrap (x : Prologue) (code : Code) :
    (x.wrap code).boundTemps = x.inits.map Prod.fst ++ code.boundTemps := by
  have hasserts : (x.asserts.foldr (fun i code => .assert (.temp i.1) i.2 code) code).boundTemps =
      code.boundTemps := by
    induction x.asserts with
    | nil => rfl
    | cons _ _ ih => exact ih
  rw [← hasserts]
  unfold wrap
  induction x.inits with
  | nil => rfl
  | cons i inits ih => exact congrArg (i.1 :: ·) ih

end Prologue

namespace Edit

variable {p : Program} {tops : TopId → List Value → Prop} {shaped : List (ArgShape × List Atom)}

theorem freshParam_new (p : Program) (t : Temp) :
    ∃ m, freshParam t p = .ok ⟨p.temps.size⟩ { p with temps := m } ∧ m.size = p.temps.size + 1 := by
  obtain ⟨u, p', h⟩ := exists_freshParam p t
  obtain ⟨rfl, m, rfl, hm⟩ := freshParam_ok h
  exact ⟨m, h, hm⟩

theorem exists_rebuilt (hpos : 0 < p.temps.size) (n : Nat) (param : Temp) (t : List Temp → Tail) :
    ∃ fields u m1 m2, freshN n p = .ok fields { p with temps := m1 } ∧
      freshParam param { p with temps := m1 } = .ok u { p with temps := m2 } ∧ fields.length = n ∧
      u.isWildcard = false ∧
      Prologue.New ⟨fields, [(u, t fields)], [], [.temp u]⟩ p.temps.size m2.size := by
  obtain ⟨fields, p1, hfields⟩ := exists_freshN p n
  obtain ⟨m1, rfl, hfresh, hlen, hle⟩ := freshN_ok hfields
  obtain ⟨m2, hu, hm2⟩ := freshParam_new { p with temps := m1 } param
  have hm1 := hfresh.le
  simp only at hm2
  have hnamed : ∀ x ∈ fields, x.isWildcard = false := fun x hx => Temp.isWildcard_of_le hpos
    (hle x hx)
  have hlt : ∀ x ∈ fields, x.index < m1.size := fun x hx =>
    (hfresh.bounds (mem_named.mpr ⟨hx, hnamed x hx⟩)).2
  refine ⟨fields, _, m1, m2, hfields, hu, hlen, Temp.isWildcard_of_le hpos hm1, ?_, ?_, by omega⟩
  · refine nodup_append'.mpr ⟨named_eq_self hnamed ▸ hfresh.nodup, nodup_singleton _, ?_⟩
    intro x hx hx'
    obtain rfl := mem_singleton.mp hx'
    exact Nat.lt_irrefl _ (hlt _ hx)
  · intro x hx
    obtain hx | hx := mem_append.mp hx
    · have := hle x hx
      have := hlt x hx
      omega
    · obtain rfl := mem_singleton.mp hx
      simp only
      omega

theorem exists_prologueOf (hpos : 0 < p.temps.size) (param : Temp) {shape : ArgShape}
    {us : List Value} {v : Value} (hgives : shape.Gives p us v) : ∃ x m,
      prologueOf param shape p = .ok x { p with temps := m } ∧ x.New p.temps.size m.size ∧
        x.Restores tops us [v] := by
  have hnew (asserts : List (Temp × Ctor)) {m : Temps} (hm : m.size = p.temps.size + 1) :
      Prologue.New ⟨[⟨p.temps.size⟩], [], asserts, [.temp ⟨p.temps.size⟩]⟩ p.temps.size m.size := by
    refine ⟨nodup_singleton _, fun u hu => ?_, by omega⟩
    obtain rfl := mem_singleton.mp hu
    simp only
    omega
  cases shape with
  | value a =>
    obtain ⟨rfl, ha⟩ := hgives
    exact ⟨_, p.temps, rfl, .nil [a] _, rfl, by simp, fun env _ _ =>
      ⟨env, .nil, .nil env, .cons (ha _ _) .nil⟩⟩
  | unknown =>
    obtain rfl := hgives
    obtain ⟨m, hu, hm⟩ := freshParam_new p param
    refine ⟨_, m, bind_ok_iff.mpr ⟨_, _, hu, rfl⟩, hnew [] hm, ?_⟩
    exact .param (Nat.zero_le _) fun env _ => .nil env
  | tag c =>
    obtain ⟨rfl, c', fields, rfl, hsame⟩ := hgives
    obtain ⟨m, hu, hm⟩ := freshParam_new p param
    refine ⟨_, m, bind_ok_iff.mpr ⟨_, _, hu, rfl⟩, hnew _ hm, .param (Nat.le_refl 1) ?_⟩
    intro env hlookup i hi
    obtain rfl := mem_singleton.mp hi
    exact ⟨c', fields, hlookup, hsame⟩
  | data c =>
    obtain ⟨hlen, rfl⟩ := hgives
    obtain ⟨fields, u, m1, m2, hfields, hu, hcount, hnamed, hnew⟩ :=
      exists_rebuilt hpos c.arity param fun fields => .data c (fields.map .temp)
    refine ⟨_, m2, bind_ok_iff.mpr ⟨_, _, hfields, bind_ok_iff.mpr ⟨_, _, hu, rfl⟩⟩,
      hnew, .rebuilt (hcount.trans hlen.symm) hnamed fun env hparams w => ?_⟩
    exact ⟨us, Atom.hasAll_temps.mpr hparams, rfl, rfl⟩
  | closure k =>
    obtain ⟨⟨closure, hclosure, hlen⟩, rfl⟩ := hgives
    obtain ⟨fields, u, m1, m2, hfields, hu, hcount, hnamed, hnew⟩ :=
      exists_rebuilt hpos closure.stored.length param fun fields => .closure k (fields.map .temp)
    have hread : read (·.closure k) p = .ok closure p :=
      read_eq_ok_iff.mpr ⟨closure_eq_ok_iff.mpr hclosure, rfl⟩
    refine ⟨_, m2, bind_ok_iff.mpr ⟨_, _, hread, bind_ok_iff.mpr ⟨_, _, hfields,
      bind_ok_iff.mpr ⟨_, _, hu, rfl⟩⟩⟩, hnew,
      .rebuilt (hcount.trans hlen) hnamed fun env hparams w => ?_⟩
    exact ⟨us, _, Atom.hasAll_temps.mpr hparams, rfl, rfl, rfl⟩

theorem exists_prologue {env : Env} {vs : List Value}
    (h : List.Forall₂ (fun x v => x.1.StandsFor p env x.2 v) shaped vs) {params : List Temp}
    (hlen : params.length = shaped.length) {m : Temps} (hpos : 0 < m.size) : ∃ x m' us,
      prologue params (shaped.map (·.1)) { p with temps := m } = .ok x { p with temps := m' } ∧
        Atom.HasAll p.HasTop env (shaped.flatMap (·.2)) us ∧ x.New m.size m'.size ∧
        x.Restores p.HasTop us vs := by
  induction h generalizing params m with
  | nil =>
    obtain rfl := length_eq_zero_iff.mp hlen
    exact ⟨{}, m, [], rfl, .nil, .nil [] m.size, rfl, by simp, fun env _ _ => ⟨env, .nil, .nil env,
      .nil⟩⟩
  | @cons shape v shaped vs hshape _ ih =>
    obtain ⟨param, params, rfl⟩ := exists_cons_of_length_eq_add_one hlen
    obtain ⟨us, hus, hgives⟩ := hshape
    obtain ⟨x, m1, hx, hnew, hrestores⟩ := exists_prologueOf (p := { p with temps := m }) hpos param
      hgives
    obtain ⟨y, m2, us', hy, hus', hnew', hrestores'⟩ :=
      ih (Nat.succ.inj hlen) (lt_of_lt_of_le hpos hnew.le)
    refine ⟨x.append y, m2, us ++ us', ?_, rel_append hus hus', hnew.append hnew',
      hrestores.append hrestores' fun u hu hu' => ?_⟩
    · exact bind_ok_iff.mpr ⟨x, _, hx, bind_ok_iff.mpr ⟨y, _, hy, rfl⟩⟩
    · have hge := (hnew'.bounds u (mem_append_right _ hu)).1
      exact Nat.not_lt_of_le hge (hnew.bounds u (mem_append_right _ hu')).2

theorem exists_specialiseCode {env : Env} {vs : List Value}
    (h : List.Forall₂ (fun x v => x.1.StandsFor p env x.2 v) shaped vs) {params : List Temp}
    (hlen : params.length = shaped.length) (hpos : 0 < p.temps.size) (code : Code) :
    ∃ (x : Prologue) (m : Temps) (us : List Value),
      specialiseCode params code (shaped.map (·.1)) p =
        .ok (x.params, x.wrap (code.copyFresh m (({} : Subst).extendAll params x.values)).1)
          { p with temps := (code.copyFresh m (({} : Subst).extendAll params x.values)).2.1 } ∧
        Atom.HasAll p.HasTop env (shaped.flatMap (·.2)) us ∧ x.New p.temps.size m.size ∧
        x.Restores p.HasTop us vs := by
  obtain ⟨x, m, us, hx, hus, hnew, hrestores⟩ := exists_prologue h hlen hpos
  refine ⟨x, m, us, ?_, hus, hnew, hrestores⟩
  unfold specialiseCode
  rw [if_neg (by simpa using hlen)]
  refine bind_ok_iff.mpr ⟨x, _, hx, ?_⟩
  exact bind_ok_iff.mpr ⟨_, _, update_eq_ok_iff.mpr rfl, rfl⟩

end Edit

theorem Code.nodup_boundTemps_copyFresh (code : Code) (m : Temps) (s : Subst) :
    (named (code.copyFresh m s).1.boundTemps).Nodup := by
  induction code generalizing m s with
  | bind vars t rest ih =>
    have hfresh := m.freshLikeAll_fresh vars
    simp only [Code.copyFresh, Code.boundTemps, named_append]
    refine nodup_append'.mpr ⟨hfresh.nodup, ih _ _, fun u hu hu' => ?_⟩
    exact Nat.not_lt_of_le (boundTemps_copyFresh hu') (hfresh.bounds hu).2
  | assert a ctor rest ih => exact ih m s
  | done | branch | switch => exact nodup_nil

namespace Prologue

variable {x : Prologue} {n : Nat} {m : Temps}

theorem New.nodup_wrap (hx : x.New n m.size) (code : Code) (s : Subst) :
    (named (x.params ++ (x.wrap (code.copyFresh m s).1).boundTemps)).Nodup := by
  rw [boundTemps_wrap, ← append_assoc, named_append]
  refine nodup_append'.mpr ⟨hx.nodup.filter _, code.nodup_boundTemps_copyFresh m s, fun u hu hu' =>
    ?_⟩
  exact Nat.not_lt_of_le (Code.boundTemps_copyFresh hu') (hx.bounds u (mem_named.mp hu).1).2

/-- The copy has a run wherever the source has one, for one more step with each allocation that is
rebuilt and each constructor that is asserted. -/
theorem Restores.runs_wrap {p : Program} {us vs : List Value} (hx : x.Restores p.HasTop us vs)
    (hnew : x.New n m.size) (hpos : 0 < n) {params : List Temp} (hlen : params.length = vs.length)
    {calls depth cost : Nat} {code : Code} {w w' : World} {e : Result}
    (hcode : code.Runs (p.counted calls) .machine depth cost 0 (Env.bind [] params vs) w e w') :
    (x.wrap (code.copyFresh m (({} : Subst).extendAll params x.values)).1).Runs
      (p.counted calls) .machine
      depth (x.inits.length + (x.asserts.length + cost)) 0 (Env.bind [] x.params us) w e w' := by
  have hbounds := hnew.bounds
  obtain ⟨hparams, -, hdisjoint⟩ := nodup_append'.mp hnew.nodup
  have hnamed : ∀ u ∈ x.params, u.isWildcard = false := fun u hu =>
    Temp.isWildcard_of_le hpos (hbounds u (mem_append_left _ hu)).1
  have hlookup : x.params.map (Env.bind [] x.params us).lookup = us.map some :=
    Env.map_lookup_bind hparams hnamed hx.length
  have hnone : ∀ u ∈ x.inits.map Prod.fst, (Env.bind [] x.params us).lookup u = none := fun u hu =>
    Env.lookup_bind_of_not_mem fun hu' => hdisjoint hu' hu
  obtain ⟨env, hrebuilds, hasserts, hvalues⟩ := hx.runs hlookup hnone
  have hnil : Env.Below [] m.size := by simp [Env.Below]
  have hbelow : env.Below m.size := hrebuilds.keepsBelow
    (fun u hu => (hbounds u (mem_append_right _ hu)).2)
    (hnil.bind (fun u hu => (hbounds u (mem_append_left _ (mem_named.mp hu).1)).2) us)
  have hcarries : (({} : Subst).extendAll params x.values).Carries p.HasTop (Env.bind [] params vs)
    env :=
    Subst.Carries.nil.extendAll (hlen.trans hvalues.length_eq.symm) hvalues
  have hcopy := hcode.copyFresh (m := m) (lt_of_lt_of_le hpos hnew.le)
    (by cases calls <;> exact hcarries) hbelow
  exact hrebuilds.runs (hasserts.runs hcopy)

end Prologue

theorem Run.Ends.extends {p q : Program} (hext : p.Extends q) {limit depth idle : Nat} {env : Env}
    {code : Code} {s s' : Machine} {e : Result}
    (h : Ends (evalCode p limit depth idle env code) s e s') :
    Ends (evalCode q limit depth idle env code) s e s' := by
  have himproves : Improves limit (evalCode p limit depth idle env code)
    (evalCode q limit depth idle env code) := evalCode_improves hext depth idle env code
  cases e with
  | returned vs =>
    change evalCode p limit depth idle env code s = .ok vs s' at h
    exact (himproves.evalCode_eq (by simp [h])).trans h
  | halted =>
    change evalCode p limit depth idle env code s = .error .halted s' at h
    exact (himproves.evalCode_eq (by simp [h])).trans h

/-- A copy for what is known of the arguments can be made, and the program keeps its definitions. It
has a parameter for each atom that is passed, and binds no variable twice. Given the values of what
is passed, it ends as the code does that was copied when that is given the values of the arguments,
with at most one more step for each of them. -/
theorem Edit.specialiseCode_faithful {p : Program} (htemps : 0 < p.temps.size)
    (hchecked : ∀ d ∈ p.allDefns, p.checkDefn d = .ok ()) (hpure : p.PureTops) (block : Block)
    {fs : Facts} {env : Env} (henv : env.Whole p) (hfs : fs.HoldIn p.HasTop env) (constants : Bool)
    {args : List Atom} {vs : List Value} (hargs : Atom.HasAll p.HasTop env args vs)
    (hlen : args.length = block.params.length) :
    ∃ params code p' us,
      specialiseCode block.params block.code (fs.argShapes p constants args).1 p =
        .ok (params, code) p' ∧
      p.Keeps p' ∧ params.length = (fs.argShapes p constants args).2.length ∧
      (named (params ++ code.boundTemps)).Nodup ∧
      Atom.HasAll p.HasTop env (fs.argShapes p constants args).2 us ∧
      ∀ ⦃limit limit' depth : Nat⦄ ⦃s s' : Machine⦄ ⦃e : Result⦄, s.Settled p limit →
        Run.Ends (Run.evalCode p limit depth (Run.idleAtStart p) (Env.bind [] block.params vs)
          block.code)
          s e s' → limit + args.length ≤ limit' →
        ∃ s'', Run.Ends (Run.evalCode p' limit' depth (Run.idleAtStart p') (Env.bind [] params us)
          code)
          s e s'' ∧ s''.world = s'.world := by
  have hshaped : List.Forall₂ (fun x v => x.1.StandsFor p env x.2 v)
      (args.map (fs.argShape p constants)) vs :=
    forall₂_map_left_iff.mpr (hargs.imp fun a v ha => hfs.argShape hchecked henv ha constants)
  obtain ⟨x, m, us, hmade, hus, hnew, hrestores⟩ := exists_specialiseCode hshaped
    (by simpa using hlen.symm) htemps block.code
  refine ⟨x.params, _, _, us, hmade, .withTemps p _, hrestores.length.trans hus.length_eq.symm,
    hnew.nodup_wrap _ _, hus, fun limit limit' depth s s' e hs hrun hlimit => ?_⟩
  obtain ⟨hs', calls, n, hn, hcode⟩ := Run.evalCode_sound hpure hs hrun
  have hcopy := hrestores.runs_wrap hnew htemps (hlen.symm.trans hargs.length_eq) hcode
  have hsteps := hrestores.steps
  have hargsLen := hargs.length_eq
  have hle := hs'.steps
  have hstart : s.Settled p limit' :=
    ⟨hs.knows, hs.pending, le_trans hs.steps (le_trans (Nat.le_add_right _ _) hlimit)⟩
  obtain ⟨s'', hends, -, hworld, -⟩ := Run.evalCode_complete hstart hcopy (by omega)
  exact ⟨s'', hends.extends (Keeps.withTemps p _).extends, hworld⟩

section Assorted

def Ctor.pair : Ctor := ⟨0, 0, 2, 1, "pair"⟩

def Ctor.empty : Ctor := ⟨1, 0, 0, 2, "empty"⟩

/-- A block that adds up the first field of a pair and a word, enters a closure with the sum, prints
the result and returns it if a box is empty. -/
def Block.assorted : Block where
  params := [⟨1⟩, ⟨2⟩, ⟨3⟩, ⟨4⟩]
  code := .bind [⟨5⟩] (.sel .pair 0 (.temp ⟨1⟩))
    (.bind [⟨6⟩] (.prim .add [.temp ⟨5⟩, .temp ⟨2⟩])
      (.bind [⟨7⟩] (.enter (.temp ⟨4⟩) [.temp ⟨6⟩])
        (.bind [] (.prim .print [.temp ⟨7⟩])
          (.switch (.temp ⟨3⟩) ⟨[⟨.empty, ⟨⟨1⟩, [.temp ⟨7⟩]⟩⟩], some ⟨⟨1⟩, [.word 0]⟩⟩))))

def Program.assorted : Program where
  temps := ⟨.replicate 15 none⟩
  datatypes := #[.declare 0 "Pair" [("pair", 2)], .declare 1 "Box" [("empty", 0), ("filled", 1)]]
  blocks := #[.assorted, { params := [⟨8⟩], code := .done (.ret [.temp ⟨8⟩]) }]
  closures := #[{ stored := [⟨9⟩], params := [⟨10⟩], tail := .prim .add [.temp ⟨9⟩, .temp ⟨10⟩] }]

def Env.assorted : Env :=
  [(⟨11⟩, .data .pair [.word 3, .word 4]), (⟨12⟩, .data .empty []),
    (⟨13⟩, .closure ⟨0⟩ [.word 100]), (⟨14⟩, .word 3)]

def Facts.assorted : Facts :=
  ⟨[(⟨11⟩, .tail (.data .pair [.temp ⟨14⟩, .word 4])), (⟨12⟩, .ctor .empty),
    (⟨13⟩, .tail (.closure ⟨0⟩ [.word 100]))]⟩

theorem Env.whole_assorted : Env.assorted.Whole .assorted := by
  intro t v hv
  obtain ⟨i, hi, rfl⟩ := Option.map_eq_some_iff.mp hv
  have hmem := mem_of_find?_eq_some hi
  simp only [assorted, mem_cons, not_mem_nil, or_false] at hmem
  obtain rfl | rfl | rfl | rfl := hmem
  · rfl
  · rfl
  · exact ⟨_, rfl, rfl⟩
  · trivial

theorem Facts.holdIn_assorted : Facts.assorted.HoldIn Program.assorted.HasTop .assorted := by
  intro t fact v hfact hv
  obtain ⟨i, hi, rfl⟩ := Option.map_eq_some_iff.mp hfact
  obtain rfl : i.1 = t := by simpa using List.find?_some hi
  have hmem := mem_of_find?_eq_some hi
  simp only [assorted, mem_cons, not_mem_nil, or_false] at hmem
  obtain rfl | rfl | rfl := hmem
  · obtain rfl := Option.some.inj hv
    exact ⟨_, .cons rfl (.cons rfl .nil), rfl⟩
  · obtain rfl := Option.some.inj hv
    exact ⟨_, _, rfl, rfl⟩
  · obtain rfl := Option.some.inj hv
    exact ⟨_, .cons rfl .nil, rfl⟩

/-- A pair of known fields, a constant, a box that is known to be empty and a known closure. -/
theorem Edit.specialiseCode_faithful_assorted :
    ∃ params code p' us,
      specialiseCode Block.assorted.params Block.assorted.code
        [.data .pair, .value (.word 5), .tag .empty, .closure ⟨0⟩] .assorted = .ok (params, code)
          p' ∧
      params.length = 4 ∧
      Atom.HasAll Program.assorted.HasTop .assorted [.temp ⟨14⟩, .word 4, .temp ⟨12⟩, .word 100]
        us ∧
      ∃ vs s, Value.observeAll vs = [.word 108] ∧ s.output = #[.word 108] ∧
        Run.evalCode p' 24 3 (Run.idleAtStart p') (Env.bind [] params us) code {} = .ok vs s := by
  have hargs : Atom.HasAll Program.assorted.HasTop .assorted
      [.temp ⟨11⟩, .word 5, .temp ⟨12⟩, .temp ⟨13⟩]
      [.data .pair [.word 3, .word 4], .word 5, .data .empty [], .closure ⟨0⟩ [.word 100]] :=
    .cons rfl (.cons rfl (.cons rfl (.cons rfl .nil)))
  obtain ⟨params, code, p', us, hmade, -, hlen, -, hus, hruns⟩ := specialiseCode_faithful
    (by decide)
    (by decide +kernel) (by simp [Program.PureTops, Program.assorted]) .assorted Env.whole_assorted
    Facts.holdIn_assorted true hargs rfl
  obtain ⟨vs, s, hrun, htest⟩ := exists_ok
    (r := Run.evalCode .assorted 20 3 (Run.idleAtStart .assorted) (Env.bind [] Block.assorted.params
      [.data .pair [.word 3, .word 4], .word 5, .data .empty [], .closure ⟨0⟩ [.word 100]])
      Block.assorted.code {})
    (fun vs s => Value.observeAll vs == [.word 108] && s.output == #[.word 108]) (by decide +kernel)
  simp only [Bool.and_eq_true, beq_iff_eq] at htest
  obtain ⟨s', hends, hworld⟩ := hruns (e := .returned vs) Program.settled_start hrun
    (Nat.le_refl 24)
  exact ⟨params, code, p', us, hmade, hlen, hus, vs, s', htest.1,
    (congrArg World.output hworld).trans htest.2, hends⟩

end Assorted

end MonadicIR
