import MonadicIR.Proofs.Splicing

namespace MonadicIR

open List

/-- Variables that are in scope are named, and were allocated. -/
def Signature.Scopes (σ : Signature) (scope : List Temp) : Prop :=
  ∀ x ∈ scope, x.isWildcard = false ∧ x.index < σ.temps

namespace Signature.Scopes

variable {σ τ : Signature} {scope vars : List Temp}

theorem mono (h : σ.Scopes scope) (hσ : σ.Le τ) : τ.Scopes scope :=
  fun x hx => ⟨(h x hx).1, lt_of_lt_of_le (h x hx).2 hσ.temps⟩

theorem bind (h : σ.Scopes scope) (hvars : ∀ v ∈ named vars, v.index < σ.temps) :
    σ.Scopes (scope ++ named vars) := by
  intro x hx
  obtain hx | hx := mem_append.mp hx
  · exact h x hx
  · exact ⟨(mem_named.mp hx).2, hvars x hx⟩

theorem entry (h : Binders σ [] vars) : σ.Scopes (named vars) :=
  fun x hx => ⟨(mem_named.mp hx).2, h.allocated x hx⟩

end Signature.Scopes

section Agree

variable {σ : Signature} {xs : List Temp} {tops : TopId → List Value → Prop} {env env' : Env}
  (h : Env.AgreesOn xs env env')

include h

theorem Atom.Has.agree {a : Atom} (ha : a.Legal σ xs) {v : Value} (hv : a.Has tops env v) :
    a.Has tops env' v := by
  cases a with
  | temp t => exact (h t ha).trans hv
  | top | word | flag | external => exact hv

theorem Atom.HasAll.agree {as : List Atom} (ha : ∀ a ∈ as, a.Legal σ xs) {vs : List Value}
    (hv : Atom.HasAll tops env as vs) : Atom.HasAll tops env' as vs := by
  induction hv with
  | nil => exact .nil
  | cons hv _ ih =>
    exact .cons (hv.agree h (ha _ (.head ..)))
      (ih fun a ha' => ha a (.tail _ ha'))

theorem Code.Picks.agree {fits : List Ctor → Ctor → Prop} {code : Code} (hlegal : code.Legal σ xs)
    {c : Call} (hp : code.Picks tops fits env c) : code.Picks tops fits env' c := by
  cases code with
  | branch test yes no =>
    obtain ⟨b, hb, hc⟩ := hp
    exact ⟨b, hb.agree h hlegal.1, hc⟩
  | switch a alts =>
    obtain ⟨ctor, fields, ha, hsel⟩ := hp
    exact ⟨ctor, fields, ha.agree h hlegal.1, hsel⟩
  | done | bind | assert => exact hp.elim

end Agree

namespace Env

theorem AgreesOn.put {xs : List Temp} {env : Env} {x : Temp} (hx : x ∉ xs) (v : Value) :
    (env.put x v).AgreesOn xs env := by
  intro y hy
  rw [lookup_put, if_neg]
  rintro ⟨rfl, -⟩
  exact hx hy

theorem Covers.exists_hasAll {env : Env} {xs : List Temp} (h : env.Covers xs)
    (tops : TopId → List Value → Prop) : ∃ vs, Atom.HasAll tops env (xs.map .temp) vs := by
  induction xs with
  | nil => exact ⟨[], .nil⟩
  | cons x xs ih =>
    obtain ⟨v, hv⟩ := h x (.head ..)
    obtain ⟨vs, hvs⟩ := ih fun y hy => h y (.tail _ hy)
    exact ⟨v :: vs, .cons hv hvs⟩

theorem AgreesOn.rebind {xs : List Temp} {env : Env} {vs : List Value}
    {tops : TopId → List Value → Prop} (hvs : Atom.HasAll tops env (xs.map .temp) vs)
    (hnodup : xs.Nodup)
    (hnamed : ∀ x ∈ xs, x.isWildcard = false) : env.AgreesOn xs (Env.bind [] xs vs) := by
  have hlen : xs.length = vs.length := by rw [← hvs.length_eq, length_map]
  have hlookup : xs.map (Env.bind [] xs vs).lookup = xs.map env.lookup :=
    (map_lookup_bind hnodup hnamed hlen).trans (Atom.hasAll_temps.mp hvs).symm
  exact map_inj_left.mp hlookup

end Env

section Forks

variable {m : Meaning} {r : Rules} {code : Code} {depth cost rank : Nat} {env env' : Env}
  {w w' : World} {e : Result} {σ : Signature} {scope : List Temp} {c : Call}

theorem Code.Picks.mem_calls {tops : TopId → List Value → Prop} {fits : List Ctor → Ctor → Prop}
    (h : code.Picks tops fits env c) : c ∈ code.calls := by
  cases code with
  | branch test yes no =>
    obtain ⟨b, -, rfl⟩ := h
    cases b <;> simp [Code.calls]
  | switch a alts =>
    obtain ⟨_, _, -, hsel, -⟩ := h
    exact Alts.mem_calls_of_select hsel
  | done | bind | assert => exact h.elim

theorem Code.Picks.runs (h : code.Picks m.top r.fits env c) {u : Use} (hu : u.EndsWithin cost rank)
    (hc : c.Runs m depth env u w e w') : code.Runs m r depth cost rank env w e w' := by
  cases code with
  | branch test yes no =>
    obtain ⟨b, hb, rfl⟩ := h
    exact ⟨b, u, hb, hu, hc⟩
  | switch a alts =>
    obtain ⟨ctor, fields, ha, hsel, hfits⟩ := h
    exact ⟨ctor, fields, c, u, ha, hsel, hfits, hu, hc⟩
  | done | bind | assert => exact h.elim

variable {v : Temp} (hv : Pass.branchesOn v code = true)

include hv

theorem Code.Runs.picks (h : code.Runs m r depth cost rank env w e w') :
    ∃ c u, code.Picks m.top r.fits env c ∧ u.EndsWithin cost rank ∧
      c.Runs m depth env u w e w' := by
  cases code with
  | branch test yes no =>
    obtain ⟨b, u, hb, hu, hc⟩ := h
    exact ⟨_, u, ⟨b, hb, rfl⟩, hu, hc⟩
  | switch a alts =>
    obtain ⟨ctor, fields, taken, u, ha, hsel, hfits, hu, hc⟩ := h
    exact ⟨taken, u, ⟨ctor, fields, ha, hsel, hfits⟩, hu, hc⟩
  | done | bind | assert => cases hv

omit hv in
theorem Code.Picks.copyFresh {tops : TopId → List Value → Prop} {fits : List Ctor → Ctor → Prop}
    (h : code.Picks tops fits env c) {s : Subst} (hs : s.Carries tops env env') (m : Temps) :
    (code.copyFresh m s).1.Picks tops fits env' (c.apply s) := by
  cases code with
  | branch test yes no =>
    obtain ⟨b, hb, rfl⟩ := h
    exact ⟨b, hs.atom hb, by cases b <;> rfl⟩
  | switch a alts =>
    obtain ⟨ctor, fields, ha, hsel, hfits⟩ := h
    refine ⟨ctor, fields, hs.atom ha, ?_, ?_⟩
    · rw [Alts.select_mapCalls, hsel]
      rfl
    · rwa [Alts.ctors_mapCalls]
  | done | bind | assert => exact h.elim

theorem Code.calls_copyFresh (m : Temps) (s : Subst) :
    (code.copyFresh m s).1.calls = code.calls.map (Call.apply s) := by
  cases code with
  | branch => rfl
  | switch => exact Alts.calls_mapCalls ..
  | done | bind | assert => cases hv

theorem Code.Legal.of_mem_calls (h : code.Legal σ scope) (hc : c ∈ code.calls) :
    c.Legal σ scope := by
  cases code with
  | branch test yes no =>
    obtain rfl | rfl : c = yes ∨ c = no := by simpa [Code.calls] using hc
    · exact h.2.1
    · exact h.2.2
  | switch a alts => exact h.2.1 c hc
  | done | bind | assert => cases hv

theorem Code.Legal.free (h : code.Legal σ scope) :
    code.Legal σ code.freeTemps := by
  have hatom {a : Atom} (ha : a ∈ code.atoms) (hlegal : a.Legal σ scope) :
    a.Legal σ code.freeTemps := by
    cases a with
    | temp t =>
      refine mem_distinct.mpr ?_
      have : t ∈ tempsOf code.atoms := mem_filterMap.mpr ⟨_, ha, rfl⟩
      cases code with
      | branch | switch => simpa [Code.openReads] using this
      | done | bind | assert => cases hv
    | top | word | flag | external => exact hlegal
  have hcall {c : Call} (hargs : ∀ a ∈ c.args, a ∈ code.atoms) (hlegal : c.Legal σ scope) :
      c.Legal σ code.freeTemps := ⟨fun a ha => hatom (hargs a ha) (hlegal.atoms a ha),
        hlegal.shaped⟩
  cases code with
  | branch test yes no =>
    exact ⟨hatom (by simp [Code.atoms]) h.1, hcall (fun a ha => by simp [Code.atoms, ha]) h.2.1,
      hcall (fun a ha => by simp [Code.atoms, ha]) h.2.2⟩
  | switch a alts =>
    refine ⟨hatom (by simp [Code.atoms]) h.1, fun c hc => hcall (fun a ha => ?_) (h.2.1 c hc),
      h.2.2⟩
    exact .tail _ (mem_flatMap.mpr ⟨c, hc, ha⟩)
  | done | bind | assert => cases hv

theorem Code.mem_scope_of_free (h : code.Legal σ scope) {x : Temp} (hx : x ∈ code.freeTemps) :
    x ∈ scope := by
  have hmem : x ∈ tempsOf code.atoms := by
    have := mem_distinct.mp hx
    cases code with
    | branch | switch => simpa [Code.openReads] using this
    | done | bind | assert => cases hv
  obtain ⟨a, ha, hax⟩ := mem_filterMap.mp hmem
  obtain rfl : a = .temp x := by cases a <;> simp_all [Atom.temp?]
  cases code with
  | branch test yes no =>
    simp only [Code.atoms, mem_cons, mem_append] at ha
    obtain rfl | ha | ha := ha
    · exact h.1
    · exact h.2.1.atoms _ ha
    · exact h.2.2.atoms _ ha
  | switch b alts =>
    simp only [Code.atoms, mem_cons, mem_flatMap] at ha
    obtain rfl | ⟨c, hc, ha⟩ := ha
    · exact h.1
    · exact (h.2.1 c hc).atoms _ ha
  | done | bind | assert => cases hv

end Forks

section Roles

variable {std : Standard} {roles roles' : Roles}

theorem Block.Fulfils.of_fork {b : BlockId} {block : Block}
    (hrole : roles.block b = some (.fork block.params block.code))
    (hlegal : block.code.Legal roles.sig (named block.params))
    (hcalls : ∀ c ∈ block.code.calls, ∃ role, roles.block c.target = some role ∧
      roles.rank c.target < roles.rank b) : block.Fulfils std roles b := by
  refine ⟨hlegal, fun roles' hle depth cost args w e w' hj => ?_⟩
  have hrole' := hle.block hrole
  cases hj with
  | @fork _ _ n _ params code _ c vs _ _ _ hb hlen hpick hvs hrun hcost =>
    obtain ⟨rfl, rfl⟩ : params = block.params ∧ code = block.code := by
      simpa using hb.symm.trans hrole'
    obtain ⟨role, htarget, hrank⟩ := hcalls c hpick.mem_calls
    have hu : (Use.block n (roles'.rank c.target)).EndsWithin cost (roles'.rank b) :=
      .inr ⟨hcost, by rwa [hle.rank htarget, hle.rank hrole]⟩
    exact ⟨hlen, Code.Picks.runs (m := std.meaning roles') (r := .free std.fits) hpick hu
      ⟨vs, n, hvs, rfl, hrun⟩⟩
  | original hb => cases hb.symm.trans hrole'
  | handoff hb => cases hb.symm.trans hrole'
  | handoffHalts hb => cases hb.symm.trans hrole'

theorem Closure.Fulfils.of_forward {k : ClosureId} {closure : Closure} {call : Call}
    {role : BlockRole} (hk : roles.closure k = some (.forward closure.stored closure.params call))
    (htail : closure.tail = .call call)
    (hlegal : closure.tail.Legal roles.sig (named (closure.stored ++ closure.params)))
    (htarget : roles.block call.target = some role)
    (hrank : roles.rank call.target < roles.closureRank k) : closure.Fulfils std roles k := by
  refine ⟨hlegal, fun roles' hle room cost stored args w e w' henter => ?_⟩
  have hk' := hle.closure hk
  cases henter with
  | @forward depth _ _ fields params call' _ _ vs _ _ _ hb hstored hargs hvs hrun =>
    obtain ⟨rfl, rfl, rfl⟩ : fields = closure.stored ∧ params = closure.params ∧ call' = call := by
      simpa using hb.symm.trans hk'
    refine ⟨by simp [hstored, hargs], .block cost (roles'.rank call'.target), .inr ⟨le_rfl, ?_⟩, ?_⟩
    · rwa [hle.rank htarget]
    · rw [htail]
      exact ⟨depth, rfl, vs, cost, hvs, rfl, hrun⟩
  | originalClosure hb => cases hb.symm.trans hk'

end Roles

section Add

variable {std : Standard} {roles : Roles} {pending : BlockId → Prop} {p : Program}

namespace Faithful

theorem addFork (h : Faithful std roles pending p)
    {params : List Temp} {code : Code} (hparams : Binders roles.sig [] params)
    (hlegal : code.Legal roles.sig (named params))
    (hcalls : ∀ c ∈ code.calls, ∃ role, roles.block c.target = some role) :
    ∃ roles', Progress std pending roles p roles' (p.addBlock { params, code }).2 ∧
      roles'.block ⟨p.blocks.size⟩ = some (.fork params code) ∧
      roles'.sig.block ⟨p.blocks.size⟩ = some params.length := by
  -- its rank is above those of all blocks that it may call
  let rank := (code.calls.map fun c => roles.rank c.target).sum + 1
  have hle := Roles.le_addBlock h.newBlock.1 h.newBlock.2 (.fork params code) rank params.length
  have hself := Roles.addBlock_self roles ⟨p.blocks.size⟩ (.fork params code) rank params.length
  let block : Block := { params := params, code := code }
  have hful : block.Fulfils std (roles.addBlock ⟨p.blocks.size⟩ (.fork params code) rank
    params.length)
      ⟨p.blocks.size⟩ := by
    refine .of_fork hself (hlegal.le hle.sig) fun c hc => ?_
    obtain ⟨role, hrole⟩ := hcalls c hc
    refine ⟨role, hle.block hrole, ?_⟩
    rw [hle.rank hrole]
    have := le_sum_of_mem (mem_map_of_mem (f := fun c => roles.rank c.target) hc)
    simp only [Roles.addBlock, if_true]
    exact Nat.lt_succ_of_le this
  have hfaithful : Faithful std (roles.addBlock ⟨p.blocks.size⟩ (.fork params code) rank
      block.params.length) pending (p.addBlock block).2 :=
    h.addBlock (fun _ => id) hparams (fun _ => hful) rfl rfl (fun _ _ h => by cases h)
  exact ⟨_, ⟨hle, .addBlock p _, hfaithful⟩, hself, by simp [Roles.addBlock]⟩

theorem addForward (h : Faithful std roles pending p) {fields params : List Temp} {call : Call}
    (hparams : Binders roles.sig [] (fields ++ params))
    (hlegal : call.Legal roles.sig (named (fields ++ params))) :
    ∃ roles', Progress std pending roles p roles'
        (p.addClosure { stored := fields, params := params, tail := .call call }).2 ∧
      roles'.closure ⟨p.closures.size⟩ = some (.forward fields params call) ∧
      roles'.sig.closure ⟨p.closures.size⟩ = some fields.length := by
  let rank := roles.rank call.target + 1
  have hle := Roles.le_addClosure h.newClosure.1 h.newClosure.2 (.forward fields params call) rank
    fields.length
  have hself := Roles.addClosure_self roles ⟨p.closures.size⟩ (.forward fields params call)
    rank fields.length
  let closure : Closure := { stored := fields, params := params, tail := .call call }
  have hful : closure.Fulfils std (roles.addClosure ⟨p.closures.size⟩ (.forward fields params call)
    rank
      closure.stored.length) ⟨p.closures.size⟩ := by
    obtain ⟨role, hrole⟩ := h.role hlegal.shaped
    refine .of_forward hself rfl (hlegal.mono hle.sig fun _ => id) (hle.block hrole) ?_
    simp [Roles.addClosure, rank]
  exact ⟨_, ⟨hle, .addClosure p _, h.addClosure hparams hful⟩, hself, by simp [Roles.addClosure]⟩

end Faithful

end Add

/-- The closure does what the code does with the value of `v`, once it stores those of `stored`. -/
structure Continues (std : Standard) (roles : Roles) (v : Temp) (rest : Code) (k : ClosureId)
    (stored : List Temp) : Prop where
  slots : roles.sig.closure k = some stored.length
  enter : ∀ ⦃roles'⦄, roles.Le roles' → ∀ ⦃depth cost env vs x w e w'⦄,
    Atom.HasAll std.base.top env (stored.map .temp) vs →
      std.Runs roles' depth cost 0 rest (env.put v x) w e w' →
        ∃ n < cost, (std.meaning roles').enter (depth + 1) n (.closure k vs) [x] w e w'

theorem Continues.mono {std : Standard} {roles roles' : Roles} {v : Temp} {rest : Code}
    {k : ClosureId}
    {stored : List Temp} (h : Continues std roles v rest k stored) (hle : roles.Le roles') :
    Continues std roles' v rest k stored :=
  ⟨hle.sig.closure h.slots, fun _ hle' => h.enter (hle.trans hle')⟩

theorem Temps.freshLike_fresh (m : Temps) (t : Temp) :
    Fresh m.size [t] [(m.freshLike t).1] (m.freshLike t).2.size := by
  have := m.freshLikeAll_fresh [t]
  simpa [Temps.freshLikeAll] using this

/-- What takes the place of code: the program may have grown for it. -/
structure Improves (std : Standard) (roles : Roles) (p : Program) (scope : List Temp) (code : Code)
    (roles' : Roles) (p' : Program) (code' : Code) : Prop where
  progress : Progress std (fun _ => False) roles p roles' p'
  legal : code'.Legal roles'.sig scope
  refines : Refines std roles' roles.sig.temps scope code code'

section Handoff

variable {std : Standard} {roles : Roles} {n : Nat} {scope : List Temp} {c : Call} {d : BlockId}
  {σ : Signature}

theorem Atom.Legal.exists_hasAll {tops : TopId → List Value → Prop} {env : Env}
    (hcovers : env.Covers scope)
    (htops : ∀ r, σ.top r → ∃ v, (Atom.top r).Has tops env v) {as : List Atom}
    (h : ∀ a ∈ as, a.Legal σ scope) : ∃ vs, Atom.HasAll tops env as vs := by
  induction as with
  | nil => exact ⟨[], .nil⟩
  | cons a as ih =>
    obtain ⟨v, hv⟩ := (h a (.head ..)).exists_has hcovers htops
    obtain ⟨vs, hvs⟩ := ih fun b hb => h b (.tail _ hb)
    exact ⟨v :: vs, .cons hv hvs⟩

theorem Refines.enter {f : Temp} {args : List Atom}
    (hd : roles.block d = some (.handoff (.enter args.length) c.target)) (hf : f ∉ scope)
    (hfnamed : f.isWildcard = false) (hargs : ∀ a ∈ args, a.Legal σ scope)
    (htops : ∀ r env, σ.top r → ∃ v, (Atom.top r).Has std.base.top env v) :
    Refines std roles n scope (.bind [f] (.call c) (.done (.enter (.temp f) args)))
      (.jump ⟨d, c.args ++ args⟩) := by
  intro roles' hle depth cost rank env w e w' _ hcovers hrun
  have hd' := hle.block hd
  obtain ⟨-, u, ⟨hu, rfl, depth, rfl, vs, k, hvs, rfl, hj⟩ | ⟨xs, w1, left, hl,
    ⟨depth, rfl, vs, k, hvs, rfl, hj⟩, hlen, _, hu, v, avs, k', hv, havs, rfl, henter⟩⟩ := hrun
  · -- the arguments have values, though they were not asked for
    obtain ⟨avs, havs⟩ := Atom.Legal.exists_hasAll hcovers (fun r => htops r env) hargs
    refine ⟨_, (Use.endsWithin_zero_iff.mpr ?_).mono le_rfl (Nat.zero_le _), _, rfl, vs ++ avs, k,
      rel_append hvs havs, rfl, .handoffHalts hd' havs.length_eq.symm hj le_rfl⟩
    have : k < cost := Use.endsWithin_zero_iff.mp hu
    exact this
  · obtain ⟨x, rfl⟩ := length_eq_one_iff.mp hlen
    have hx : (env.put f x).lookup f = some x := Env.lookup_put.trans (if_pos ⟨rfl, hfnamed⟩)
    obtain rfl : x = v := Option.mem_unique hx hv
    have havs : Atom.HasAll std.base.top env args avs := havs.agree (.put hf x) hargs
    refine ⟨_, (Use.endsWithin_zero_iff.mpr ?_).mono le_rfl (Nat.zero_le _), _, rfl, vs ++ avs,
      k + k', rel_append hvs havs, rfl,
      .handoff hd' havs.length_eq.symm ⟨rfl, rfl⟩ hj henter le_rfl⟩
    have : k' < left := hu
    simp only [Rules.free, Use.cost] at hl ⊢
    omega

/-- A copy that enters a closure with its result does what the closure continues with. -/
theorem Refines.continuation {v cont : Temp} {rest : Code} {k : ClosureId} {stored : List Temp}
    (hd : roles.block d = some (.handoff .continuation c.target))
    (hcontinues : Continues std roles v rest k stored) (hstored : ∀ x ∈ stored, x ∈ scope)
    (hnew : n ≤ cont.index) (hnamed : cont.isWildcard = false) :
    Refines std roles n scope (.bind [v] (.call c) rest)
    (.bind [cont] (.closure k (stored.map .temp)) (.jump ⟨d, c.args ++ [.temp cont]⟩)) := by
  intro roles' hle depth cost rank env w e w' hbelow hcovers hrun
  have hd' := hle.block hd
  obtain ⟨svs, hsvs⟩ := (hcovers.mono hstored).exists_hasAll std.base.top
  have hvars : ∀ x ∈ named [cont], n ≤ x.index := fun x hx =>
    mem_singleton.mp (mem_named.mp hx).1 ▸ hnew
  have hsub : env.Sub (env.put cont (.closure k svs)) :=
    (Env.Sub.refl env).bind_right hbelow hvars [.closure k svs]
  have hcont : (Atom.temp cont).Has std.base.top (env.put cont (.closure k svs)) (.closure k svs) :=
    Env.lookup_put.trans (if_pos ⟨rfl, hnamed⟩)
  have hpassed {vs : List Value} (hvs : Atom.HasAll std.base.top env c.args vs) :
      Atom.HasAll std.base.top (env.put cont (.closure k svs)) (c.args ++ [.temp cont])
        (vs ++ [.closure k svs]) :=
    rel_append (hvs.imp fun _ _ ha => ha.sub hsub) (.cons hcont .nil)
  refine ⟨False.elim, .nothing, .inr ⟨[.closure k svs], w, cost, by simp [Rules.free],
    ⟨rfl, svs, _, hsvs, rfl, rfl, rfl⟩, rfl, ?_⟩⟩
  obtain ⟨-, u, ⟨hu, rfl, depth, rfl, vs, l, hvs, rfl, hj⟩ | ⟨xs, w1, left, hl,
    ⟨depth, rfl, vs, l, hvs, rfl, hj⟩, hlen, hrest⟩⟩ := hrun
  · have : l < cost := Use.endsWithin_zero_iff.mp hu
    exact ⟨.block l (roles'.rank d), .inl this, _, rfl, _, l, hpassed hvs, rfl,
      .handoffHalts hd' rfl hj le_rfl⟩
  · obtain ⟨x, rfl⟩ := length_eq_one_iff.mp hlen
    obtain ⟨l', hlt, henter⟩ := hcontinues.enter hle hsvs hrest
    refine ⟨.block (l + l') (roles'.rank d), .inl ?_, _, rfl, _, l + l', hpassed hvs, rfl,
      .handoff hd' rfl ⟨rfl, rfl⟩ hj henter le_rfl⟩
    simp only [Rules.free, Use.cost] at hl
    omega

end Handoff

namespace Pass

/-- The free variables without the one that is passed. -/
abbrev storedFor (v : Temp) (rest : Code) : List Temp := rest.freeTemps.filter (· != v)

section Continuation

variable {std : Standard} {roles : Roles} {p p' : Program} {v : Temp} {rest : Code} {k : ClosureId}
  {stored : List Temp}

theorem addContinuation_eq_ok (h : addContinuation v rest p = .ok (k, stored) p') :
    ∃ params fields arg m1 m3,
      let copy := rest.copyFresh m1 (({} : Subst).renameAll rest.freeTemps params)
      let s := ({} : Subst).renameAll (storedFor v rest ++ [v]) (fields ++ [arg])
      let p1 := (Program.addBlock { p with temps := copy.2.1 } { params, code := copy.1 }).2
      let p2 := Program.addClosure { p1 with temps := m3 }
        { stored := fields, params := [arg],
          tail := .call ⟨⟨p.blocks.size⟩, (rest.freeTemps.map .temp).map s.apply⟩ }
      Fresh p.temps.size rest.freeTemps params (Temps.size m1) ∧
      Fresh copy.2.1.size (storedFor v rest ++ [v]) (fields ++ [arg]) (Temps.size m3) ∧
      fields.length = (storedFor v rest).length ∧
      k = ⟨p.closures.size⟩ ∧ stored = storedFor v rest ∧ p' = p2.2 := by
  simp only [addContinuation, bind_ok_iff, pure_ok_iff, Edit.addBlock,
    Edit.addClosure, Edit.update_eq_ok_iff, Edit.freshLike] at h
  obtain ⟨params, p1, hparams, ⟨code, s⟩, p2, hcode, b, p3, hb, fields, p4, hfields, arg, p5, harg,
    k', p6, hk, hks, rfl⟩ := h
  obtain ⟨rfl, rfl⟩ := Prod.mk.inj hks
  obtain ⟨m1, rfl, hfresh⟩ := Edit.freshLikeAll_ok hparams
  obtain ⟨rfl, rfl⟩ := Edit.copyFresh_ok hcode
  obtain ⟨rfl, rfl⟩ := Prod.mk.inj hb
  obtain ⟨m2, rfl, hfresh'⟩ := Edit.freshLikeAll_ok hfields
  obtain ⟨rfl, rfl⟩ := Prod.mk.inj harg
  obtain ⟨rfl, rfl⟩ := Prod.mk.inj hk
  refine ⟨params, fields, _, m1, _, hfresh, hfresh'.append (m2.freshLike_fresh v),
    hfresh'.length_eq, rfl, rfl, ?_⟩
  rw [Subst.renameAll_append _ hfresh'.length_eq.symm]
  rfl

/-- In an environment with only the stored variables and `v`, the free variables have their values. -/
theorem agreesOn_free {tops : TopId → List Value → Prop} {env : Env} {vs : List Value} {x : Value}
    (hvs : Atom.HasAll tops env ((storedFor v rest).map .temp) vs) (hv : v.isWildcard = false)
    (hnamed : ∀ y ∈ rest.freeTemps, y.isWildcard = false) :
    (env.put v x).AgreesOn rest.freeTemps (Env.bind [] (storedFor v rest ++ [v]) (vs ++ [x])) := by
  have hlen : (storedFor v rest).length = vs.length := by rw [← hvs.length_eq, length_map]
  have hstored : env.AgreesOn (storedFor v rest) (Env.bind [] (storedFor v rest) vs) :=
    .rebind hvs ((nodup_distinct _).filter _) fun y hy => hnamed y (mem_of_mem_filter hy)
  intro y hy
  rw [Env.bind_append hlen, Env.bind_cons]
  simp only [Env.bind, Env.lookup_put]
  split
  · rfl
  · rename_i hne
    have hyv : y ≠ v := fun h => hne ⟨h.symm, hv⟩
    exact hstored y (mem_filter.mpr ⟨hy, by simpa using hyv⟩)

theorem continues_of_roles {b : BlockId} {params fields : List Temp} {arg : Temp} {m : Temps}
    {n n' n1 n2 : Nat} (hn : 0 < n) (hn' : 0 < n') (hbranches : branchesOn v rest = true)
    (hlegal : rest.Legal roles.sig rest.freeTemps) (hv : v.isWildcard = false)
    (hnamed : ∀ y ∈ rest.freeTemps, y.isWildcard = false)
    (hparams : Fresh n rest.freeTemps params n1)
    (hfields : Fresh n' (storedFor v rest ++ [v]) (fields ++ [arg]) n2)
    (hlen : fields.length = (storedFor v rest).length)
    (hb : roles.block b = some (.fork params
      (rest.copyFresh m (({} : Subst).renameAll rest.freeTemps params)).1))
    (hk : roles.closure k = some (.forward fields [arg] ⟨b, (rest.freeTemps.map .temp).map
      (({} : Subst).renameAll (storedFor v rest ++ [v]) (fields ++ [arg])).apply⟩))
    (hslots : roles.sig.closure k = some fields.length) :
    Continues std roles v rest k (storedFor v rest) := by
  refine ⟨hlen ▸ hslots, ?_⟩
  intro roles' hle depth cost env vs x w e w' hvs hrun
  obtain ⟨c, u, hpick, hu, cvs, n3, hcvs, rfl, hdoes⟩ := hrun.picks hbranches
  have hvlen : (storedFor v rest).length = vs.length := by rw [← hvs.length_eq, length_map]
  have hagree := agreesOn_free (x := x) hvs hv hnamed
  -- the values of the free variables, which the closure passes to the block
  have hcovers : (Env.bind [] (storedFor v rest ++ [v]) (vs ++ [x])).Covers rest.freeTemps := by
    refine (Env.Covers.entry (by simp [hvlen])).mono fun y hy => mem_named.mpr ⟨?_, hnamed y hy⟩
    by_cases hyv : y = v
    · simp [hyv]
    · exact mem_append_left _ (mem_filter.mpr ⟨hy, by simpa using hyv⟩)
  obtain ⟨fvs, hfvs⟩ := hcovers.exists_hasAll std.base.top
  have hflen : fvs.length = rest.freeTemps.length := by rw [← hfvs.length_eq, length_map]
  have hagree' := Env.AgreesOn.rebind hfvs (nodup_distinct _) hnamed
  have hnil (n : Nat) : Env.Below [] n := fun _ _ h => nomatch h
  have hempty : ({} : Subst).Carries std.base.top [] [] := .nil
  obtain ⟨hcarries, -⟩ := hparams.carries hn hempty (hnil n) hflen
  have hstored : (vs ++ [x]).length = (storedFor v rest ++ [v]).length := by simp [hvlen]
  obtain ⟨hcarries', -⟩ := hfields.carries hn' hempty (hnil n') hstored
  have hcargs := (hlegal.of_mem_calls hbranches hpick.mem_calls).atoms
  refine ⟨n3, Use.endsWithin_zero_iff.mp hu, .forward (hle.closure hk) (hlen.trans hvlen) rfl
    (hcarries'.atoms hfvs) (.fork (hle.block hb) (hparams.length_eq.trans hflen.symm)
      (((hpick.agree hagree hlegal).agree hagree' hlegal).copyFresh hcarries m) ?_ hdoes le_rfl)⟩
  exact hcarries.atoms ((hcvs.agree hagree hcargs).agree hagree' hcargs)

theorem addContinuation_spec (h : Faithful std roles (fun _ => False) p) {scope : List Temp}
    (hbranches : branchesOn v rest = true) (hlegal : rest.Legal roles.sig (scope ++ [v]))
    (hscope : roles.sig.Scopes (scope ++ [v]))
    (hadd : addContinuation v rest p = .ok (k, stored) p') :
    ∃ roles', Progress std (fun _ => False) roles p roles' p' ∧ (∀ x ∈ stored, x ∈ scope) ∧
      Continues std roles' v rest k stored := by
  obtain ⟨params, fields, arg, m1, m3, hparams, hfields, hlen, rfl, rfl, rfl⟩ :=
    addContinuation_eq_ok hadd
  have hfree : ∀ x ∈ rest.freeTemps, x ∈ scope ++ [v] := fun x hx =>
    Code.mem_scope_of_free hbranches hlegal hx
  have hnamed : ∀ x ∈ rest.freeTemps, x.isWildcard = false := fun x hx => (hscope x (hfree x hx)).1
  have hlegal' := hlegal.free hbranches
  have htemps := h.temps
  have hpos := roles.sig.temps_pos
  have hsize := rest.size_copyFresh m1 (({} : Subst).renameAll rest.freeTemps params)
  have hle1 := hparams.le
  have hempty {τ : Signature} : ∀ x ∈ ([] : List Temp), (({} : Subst).apply (.temp x)).Legal τ
    [] := by simp
  have hp1 := h.withTemps (le_trans hle1 hsize)
  have hlegal1 : Code.Legal _ (named params) _ := hlegal'.copyFresh hp1.le.sig (by omega) le_rfl
    (fun x hx => hparams.legal (by omega) hempty x (mem_named.mpr ⟨hx, hnamed x hx⟩))
    fun x hx => (hparams.bounds hx).2
  obtain ⟨roles2, hp2, hb, hslots⟩ := hp1.faithful.addFork
    (hparams.binders (fun _ hx => nomatch hx) hsize) hlegal1 fun c hc => by
      rw [Code.calls_copyFresh hbranches, mem_map] at hc
      obtain ⟨c, hc, rfl⟩ := hc
      exact h.role (hlegal.of_mem_calls hbranches hc).shaped
  have hp3 := hp2.faithful.withTemps hfields.le
  have hcall : Call.Legal (roles2.withTemps m3.size hp3.le.sig.temps).sig (named (fields ++ [arg]))
      ⟨⟨p.blocks.size⟩, (rest.freeTemps.map .temp).map
        (({} : Subst).renameAll (storedFor v rest ++ [v]) (fields ++ [arg])).apply⟩ := by
    refine ⟨fun a ha => ?_, ?_⟩
    · simp only [Tail.atoms, mem_map] at ha
      obtain ⟨_, ⟨x, hx, rfl⟩, rfl⟩ := ha
      refine hfields.legal (by omega) hempty x (mem_named.mpr ⟨?_, hnamed x hx⟩)
      by_cases hxv : x = v
      · simp [hxv]
      · exact mem_append_left _ (mem_filter.mpr ⟨hx, by simpa using hxv⟩)
    · simpa [Tail.Shaped, hparams.length_eq] using hp3.le.sig.block hslots
  obtain ⟨roles4, hp4, hk, hslots'⟩ := hp3.faithful.addForward
    (hfields.binders (fun _ hx => nomatch hx) le_rfl) hcall
  have hp := hp1.trans (hp2.trans (hp3.trans hp4))
  refine ⟨roles4, hp, fun x hx => ?_, ?_⟩
  · obtain ⟨hx, hxv⟩ := mem_filter.mp hx
    have := hfree x hx
    simp_all
  · exact continues_of_roles (n := p.temps.size) (by omega) (by omega) hbranches
      (hlegal'.le hp.le.sig) (hscope v (by simp)).1 hnamed hparams hfields hlen
      (hp4.le.block (hp3.le.block hb)) hk hslots'

end Continuation

section Push

variable {std : Standard} {roles : Roles} {s s' : Workbench} {scope : List Temp}

theorem handoffOf_spec (h : Faithful std roles (fun _ => False) s.program) {hand : Handoff}
    {b d : BlockId}
    {role : BlockRole} (hb : roles.block b = some role) (hd : handoffOf hand b s = .ok d s') :
    ∃ roles', Progress std (fun _ => False) roles s.program roles' s'.program ∧
      roles'.block d = some (.handoff hand b) := by
  simp only [handoffOf, bind_ok_iff, get_ok_iff] at hd
  obtain ⟨_, _, ⟨rfl, rfl⟩, hd⟩ := hd
  exact deriveHandoff_spec h _ hb (fun _ hx => hx.elim) h.stay hd

theorem entered?_eq_some {f : Temp} {code : Code} {args : List Atom}
    (h : entered? f code = some args) :
    code = .done (.enter (.temp f) args) ∧ Atom.temp f ∉ args := by
  unfold entered? at h
  split at h
  · split at h
    · rename_i hcond
      obtain ⟨rfl, hmem⟩ := hcond
      obtain rfl := Option.some.inj h
      exact ⟨rfl, hmem⟩
    · cases h
  · cases h

theorem pushEnter_spec (h : Faithful std roles (fun _ => False) s.program)
    (htops : ∀ r env, std.ref r → ∃ v, (Atom.top r).Has std.base.top env v)
    (hscope : roles.sig.Scopes scope) {o : Options} {src : BlockId} {vars : List Temp} {c : Call}
    {rest code : Code} (hlegal : (Code.bind vars (.call c) rest).Legal roles.sig scope)
    (hpush : pushEnter o src vars c rest s = .ok (some code) s') :
    ∃ roles', Improves std roles s.program scope (.bind vars (.call c) rest) roles' s'.program
      code := by
  obtain ⟨hc, hvars, hrest⟩ := hlegal
  unfold pushEnter at hpush
  split at hpush
  · rename_i f
    cases hentered : entered? f rest with
    | none => simp [hentered] at hpush
    | some args =>
      simp only [hentered, bind_ok_iff, look_eq_ok_iff, Program.block_eq_ok_iff] at hpush
      obtain ⟨block, _, ⟨hblock, rfl⟩, hpush⟩ := hpush
      split at hpush
      · simp only [bind_ok_iff, report_eq_ok_iff, pure_ok_iff, exists_unit,
          Option.some.injEq] at hpush
        obtain ⟨d, s1, hd, _, rfl, rfl, rfl⟩ := hpush
        obtain ⟨rfl, hmem⟩ := entered?_eq_some hentered
        have hf : f ∈ scope ++ named [f] := hrest.atoms (.temp f) (.head ..)
        have hargs : ∀ a ∈ args, a.Legal roles.sig (scope ++ named [f]) :=
          fun a ha => hrest.atoms a (.tail _ ha)
        have hfnamed : f.isWildcard = false := by
          obtain hf | hf := mem_append.mp hf
          · exact (hscope f hf).1
          · exact (mem_named.mp hf).2
        have hnew : f ∉ scope := hvars.new f (mem_named.mpr ⟨mem_singleton_self f, hfnamed⟩)
        have hargs : ∀ a ∈ args, a.Legal roles.sig scope := by
          intro a ha
          cases a with
          | temp t =>
            obtain ht | ht := mem_append.mp (hargs _ ha)
            · exact ht
            · obtain rfl := mem_singleton.mp (mem_named.mp ht).1
              exact absurd ha hmem
          | top | word | flag | external => exact hargs _ ha
        obtain ⟨role, hrole⟩ := h.role hc.shaped
        obtain ⟨roles', hp, hd⟩ := handoffOf_spec h hrole hd
        exact ⟨roles', hp, hp.faithful.coherent.legal_call hd hp.le.sig hc (fun _ => id)
          (fun a ha => (hargs a ha).mono hp.le.sig fun _ => id) rfl,
          .enter hd hnew hfnamed hargs fun r env hr => htops r env (h.ref hr)⟩
      · simp at hpush
  · simp at hpush

theorem looks_continuationCandidate (o : Options) (b : BlockId) :
    Looks (continuationCandidate o b) := by
  refine .bind (.look _) fun block => ?_
  split
  · exact .pure _
  · exact .ite (.look _) (.pure _)

/-- A call whose result is branched on becomes a call of a copy, which enters the branch. -/
theorem pushCase_spec (h : Faithful std roles (fun _ => False) s.program)
    (hscope : roles.sig.Scopes scope)
    {o : Options} {src : BlockId} {vars : List Temp} {c : Call} {rest code : Code}
    (hlegal : (Code.bind vars (.call c) rest).Legal roles.sig scope)
    (hpush : pushCase o src vars c rest s = .ok (some code) s') :
    ∃ roles', Improves std roles s.program scope (.bind vars (.call c) rest) roles' s'.program
      code := by
  obtain ⟨hc, hvars, hrest⟩ := hlegal
  unfold pushCase at hpush
  split at hpush
  · rename_i v
    split at hpush
    · rename_i hbranches
      simp only [bind_ok_iff] at hpush
      obtain ⟨candidate, s0, hcandidate, hpush⟩ := hpush
      obtain rfl := looks_continuationCandidate _ _ hcandidate
      cases candidate with
      | false => simp at hpush
      | true =>
        simp only [if_true, bind_ok_iff, edit_eq_ok_iff, report_eq_ok_iff, pure_ok_iff,
          exists_unit, Option.some.injEq] at hpush
        obtain ⟨⟨k, stored⟩, _, ⟨p1, hadd, rfl⟩, cont, _, ⟨p2, hfresh, rfl⟩, d, s1, hd, _, rfl, rfl,
          rfl⟩ :=
          hpush
        have hv : v ∈ scope ++ named [v] := by
          cases rest with
          | branch test yes no =>
            cases test <;> simp_all [branchesOn, Code.Legal, Atom.Legal]
          | switch a alts =>
            cases a <;> simp_all [branchesOn, Code.Legal, Atom.Legal]
          | done | bind | assert => cases hbranches
        have hnamed : named [v] = [v] := named_eq_self fun x hx => by
          rw [mem_singleton.mp hx]
          obtain hv | hv := mem_append.mp hv
          · exact (hscope v hv).1
          · exact (mem_named.mp hv).2
        have hscope' := hscope.bind hvars.allocated
        rw [hnamed] at hrest hscope'
        obtain ⟨roles1, hp1, hstored, hcontinues⟩ := addContinuation_spec h hbranches hrest hscope'
          hadd
        obtain ⟨rfl, m, rfl, hm⟩ := Edit.fresh_ok hfresh
        have hm : m.size = p1.temps.size + 1 := hm
        have hp2 := hp1.faithful.withTemps (m := m) (by omega)
        obtain ⟨role, hrole⟩ := h.role hc.shaped
        obtain ⟨roles3, hp3, hd⟩ := handoffOf_spec hp2.faithful (hp2.le.block (hp1.le.block hrole))
          hd
        have hp := hp1.trans (hp2.trans hp3)
        have htemps := hp1.faithful.temps
        have hpos := roles1.sig.temps_pos
        have hle := hp1.le.sig.temps
        have hcont : Temp.isWildcard ⟨p1.temps.size⟩ = false := Temp.isWildcard_of_le hpos
          (by simp [htemps])
        have hcontlt : p1.temps.size < roles3.sig.temps := by
          have : m.size ≤ roles3.sig.temps := hp3.le.sig.temps
          omega
        refine ⟨roles3, hp, ⟨?_, ?_, ?_⟩, .continuation hd (hcontinues.mono (hp2.trans hp3).le)
          hstored (by simpa only [← htemps] using hle) hcont⟩
        · refine ⟨fun a ha => ?_, ?_⟩
          · obtain ⟨x, hx, rfl⟩ := mem_map.mp ha
            exact hstored x hx
          · simpa [Tail.Shaped] using (hp2.trans hp3).le.sig.closure hcontinues.slots
        · refine ⟨(nodup_singleton _).filter _, fun x hx hmem => ?_, fun x hx => ?_⟩
          · rw [mem_singleton.mp (mem_named.mp hx).1] at hmem
            have : p1.temps.size < roles.sig.temps := (hscope _ hmem).2
            omega
          · rw [mem_singleton.mp (mem_named.mp hx).1]
            exact hcontlt
        · refine hp.faithful.coherent.legal_call hd hp.le.sig hc (fun _ => mem_append_left _)
            (fun a ha => ?_) rfl
          obtain rfl := mem_singleton.mp ha
          exact mem_append_right _ (mem_named.mpr ⟨mem_singleton_self _, hcont⟩)
    · simp at hpush
  · simp at hpush

end Push

end Pass

end MonadicIR
