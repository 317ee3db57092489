import MonadicIR.Optimiser.Inline
import MonadicIR.Proofs.Handoffs

namespace MonadicIR

/-- The first use is no more than the second. -/
structure Use.Le (u u' : Use) : Prop where
  ends : ∀ ⦃cost rank⦄, u'.EndsWithin cost rank → u.EndsWithin cost rank
  cost : u.cost ≤ u'.cost

namespace Use.Le

theorem refl (u : Use) : u.Le u := ⟨fun _ _ => id, le_rfl⟩

theorem trans {u1 u2 u3 : Use} (h : u1.Le u2) (h' : u2.Le u3) : u1.Le u3 :=
  ⟨fun _ _ hu => h.ends (h'.ends hu), le_trans h.cost h'.cost⟩

end Use.Le

theorem Use.EndsWithin.le_block {u : Use} {n rank : Nat} (h : u.EndsWithin n rank) :
    u.Le (.block n rank) := by
  refine ⟨fun cost rank' hu => ?_, h.cost_le⟩
  cases u <;> simp only [EndsWithin] at h hu ⊢ <;> omega

/-- Whatever the first call does, the second does too, and uses no more. -/
def Call.Refines (std : Standard) (roles : Roles) (c c' : Call) : Prop :=
  ∀ ⦃roles'⦄, roles.Le roles' → ∀ ⦃depth env u w e w'⦄,
    c.Runs (std.meaning roles') depth env u w e w' →
      ∃ u', u'.Le u ∧ c'.Runs (std.meaning roles') depth env u' w e w'

namespace Call.Refines

variable {std : Standard} {roles roles' : Roles} {c c' c'' : Call} {n : Nat} {scope : List Temp}

theorem refl (std : Standard) (roles : Roles) (c : Call) : c.Refines std roles c :=
  fun _ _ _ _ u _ _ _ hrun => ⟨u, .refl u, hrun⟩

theorem trans (h : c.Refines std roles c') (h' : c'.Refines std roles c'') :
    c.Refines std roles c'' := by
  intro roles' hle depth env u w e w' hrun
  obtain ⟨u1, hu1, hrun1⟩ := h hle hrun
  obtain ⟨u2, hu2, hrun2⟩ := h' hle hrun1
  exact ⟨u2, hu2.trans hu1, hrun2⟩

theorem jump (h : c.Refines std roles c') :
    MonadicIR.Refines std roles n scope (.jump c) (.jump c') := by
  intro roles' hle depth cost rank env w e w' _ _ hrun
  obtain ⟨u, hu, _, ⟨⟩, hrun⟩ := hrun
  obtain ⟨u', hu', hrun'⟩ := h hle hrun
  exact ⟨u', hu'.ends hu, _, rfl, hrun'⟩

theorem bind (h : c.Refines std roles c') (vars : List Temp) (rest : Code) :
    MonadicIR.Refines std roles n scope (.bind vars (.call c) rest)
    (.bind vars (.call c') rest) := by
  intro roles' hle depth cost rank env w e w' _ _ hrun
  obtain ⟨hd, u, ⟨hu, he, _, rfl, hrun⟩ | ⟨vs, w1, left, hl, ⟨_, rfl, hrun⟩, hlen, hrest⟩⟩ := hrun
  · obtain ⟨u', hu', hrun'⟩ := h hle hrun
    exact ⟨hd, u', .inl ⟨hu'.ends hu, he, _, rfl, hrun'⟩⟩
  · obtain ⟨u', hu', hrun'⟩ := h hle hrun
    have hcost := hu'.cost
    -- a call is followed by code of rank zero, whatever it uses
    obtain ⟨_, _, -, rfl, -⟩ := hrun
    have hafter : u'.rankAfter rank = 0 := by
      obtain ⟨_, _, -, rfl, -⟩ := hrun'
      rfl
    refine ⟨hd, u', .inr ⟨vs, w1, left, by omega, ⟨_, rfl, hrun'⟩, hlen, ?_⟩⟩
    rw [hafter]
    exact hrest

theorem branch {yes no yes' no' : Call} (hyes : yes.Refines std roles yes')
    (hno : no.Refines std roles no') (test : Atom) :
    MonadicIR.Refines std roles n scope (.branch test yes no) (.branch test yes' no') := by
  intro roles' hle depth cost rank env w e w' _ _ hrun
  obtain ⟨b, u, hb, hu, hrun⟩ := hrun
  have hpick : (if b then yes else no).Refines std roles (if b then yes' else no') := by
    cases b <;> assumption
  obtain ⟨u', hu', hrun'⟩ := hpick hle hrun
  exact ⟨b, u', hb, hu'.ends hu, hrun'⟩

theorem switch {alts alts' : Alts} (h : alts.Related (fun _ => Call.Refines std roles) alts')
    (a : Atom) : MonadicIR.Refines std roles n scope (.switch a alts) (.switch a alts') := by
  intro roles' hle depth cost rank env w e w' _ _ hrun
  obtain ⟨c, fields, taken, u, ha, hsel, hfits, hu, hrun⟩ := hrun
  obtain ⟨-, taken', hsel', hc, -⟩ := h.select hsel
  obtain ⟨u', hu', hrun'⟩ := hc hle hrun
  exact ⟨c, fields, taken', u', ha, hsel', h.ctors ▸ hfits, hu'.ends hu, hrun'⟩

end Call.Refines

theorem Subst.bind_eq_ok {s s' : Subst} {ts : List Temp} {as : List Atom}
    (h : s.bind ts as = .ok s') : ts.length = as.length ∧ s' = s.extendAll ts as := by
  unfold Subst.bind at h
  split at h
  · exact ⟨‹_›, (Except.ok.inj h).symm⟩
  · cases h

theorem Subst.extendAll_legal {τ : Signature} {scope scope' : List Temp} {s : Subst}
    {ts : List Temp}
    {as : List Atom} (hlen : ts.length = as.length) (has : ∀ a ∈ as, a.Legal τ scope')
    (hs : ∀ x ∈ scope, (s.apply (.temp x)).Legal τ scope') :
    ∀ x ∈ scope ++ named ts, ((s.extendAll ts as).apply (.temp x)).Legal τ scope' := by
  induction ts generalizing s scope as with
  | nil =>
    cases as with
    | nil => simpa [named, Subst.extendAll] using hs
    | cons => cases hlen
  | cons t ts ih =>
    cases as with
    | nil => cases hlen
    | cons a as =>
      have hs' : ∀ x ∈ scope ++ named [t], ((s.extend t a).apply (.temp x)).Legal τ scope' := by
        intro x hx
        by_cases htx : t = x ∧ t.isWildcard = false
        · obtain ⟨rfl, ht⟩ := htx
          rw [Subst.apply_extend_self ht]
          exact has a (.head ..)
        · have hmem : x ∈ scope := by
            rw [List.mem_append, mem_named, List.mem_singleton] at hx
            obtain hx | ⟨rfl, hx⟩ := hx
            · exact hx
            · exact absurd ⟨rfl, hx⟩ htx
          simp only [Subst.apply, Subst.lookup_extend, if_neg htx]
          exact hs x hmem
      have := ih (Nat.succ.inj hlen) (fun b hb => has b (.tail _ hb)) hs'
      rwa [List.append_assoc, ← named_append] at this

section Callee

variable {std : Standard} {roles roles' : Roles} {p : Program} {scope : List Temp} {c : Call}
  {block : Block}

namespace Faithful

theorem callee (h : Faithful std roles (fun _ => False) p) (hc : c.Legal roles.sig scope)
    (hblock : p.blocks[c.target.index]? = some block) :
    block.params.length = c.args.length ∧ block.Fulfils std roles c.target := by
  obtain ⟨role, hrole⟩ := h.role hc.shaped
  obtain ⟨_, hblock', hlen, -, hful⟩ := h.block hrole
  obtain rfl := Option.mem_unique hblock hblock'
  exact ⟨Option.mem_unique hlen hc.shaped, hful id⟩

end Faithful

theorem Call.Legal.arguments (hc : c.Legal roles.sig scope) {params : List Temp}
    (hlen : params.length = c.args.length) :
    ∀ x ∈ named params, ((({} : Subst).extendAll params c.args).apply (.temp x)).Legal roles.sig
      scope := by
  have : ∀ x ∈ [] ++ named params,
      ((({} : Subst).extendAll params c.args).apply (.temp x)).Legal roles.sig scope :=
    Subst.extendAll_legal hlen hc.atoms fun _ h => nomatch h
  simpa using this

theorem Block.Fulfils.runs_of_call (hful : block.Fulfils std roles c.target) (hle : roles.Le roles')
    {depth : Nat} {env : Env} {u : Use} {w w' : World} {e : Result}
    (hrun : c.Runs (std.meaning roles') depth env u w e w') :
    ∃ n vs, u = .block n (roles'.rank c.target) ∧
      (({} : Subst).extendAll block.params c.args).Carries std.base.top
        (Env.bind [] block.params vs) env ∧
      std.Runs roles' depth n (roles'.rank c.target) block.code (Env.bind [] block.params vs) w e
        w' := by
  obtain ⟨vs, n, hvs, rfl, hj⟩ := hrun
  obtain ⟨hlen, hbody⟩ := hful.meets hle hj
  exact ⟨n, vs, rfl, Subst.Carries.nil.extendAll (hlen.trans hvs.length_eq.symm) hvs, hbody⟩

namespace Faithful

variable (h : Faithful std roles (fun _ => False) p)

include h

theorem followGotos {fuel : Nat} {visited : List BlockId} {c' : Call} (hc : c.Legal roles.sig scope)
    (hf : p.followGotos fuel visited c = .ok c') :
    c'.Legal roles.sig scope ∧ c.Refines std roles c' := by
  induction fuel generalizing visited c with
  | zero =>
    obtain rfl := Except.ok.inj hf
    exact ⟨hc, .refl ..⟩
  | succ fuel ih =>
    simp only [Program.followGotos, bind_eq_ok_iff, Program.block_eq_ok_iff] at hf
    obtain ⟨block, hblock, hf⟩ := hf
    obtain ⟨hlen, hful⟩ := h.callee hc hblock
    split at hf
    · rename_i next hcode
      split at hf
      · obtain ⟨s, hs, hf⟩ := bind_eq_ok_iff.mp hf
        obtain ⟨-, rfl⟩ := Subst.bind_eq_ok hs
        have hnext : next.Legal roles.sig (named block.params) := by
          have := hful.legal
          rwa [hcode] at this
        obtain ⟨hlegal, hrefines⟩ := ih (hnext.apply (.refl _) (hc.arguments hlen)) hf
        refine ⟨hlegal, .trans (fun roles' hle depth env u w e w' hrun => ?_) hrefines⟩
        obtain ⟨n, vs, rfl, hcarries, hbody⟩ := hful.runs_of_call hle hrun
        rw [hcode] at hbody
        obtain ⟨u, hu, _, ⟨⟩, hrun⟩ := hbody
        exact ⟨u, hu.le_block, hrun.apply (m := std.meaning roles') hcarries⟩
      · obtain rfl := Except.ok.inj hf
        exact ⟨hc, .refl ..⟩
    · obtain rfl := Except.ok.inj hf
      exact ⟨hc, .refl ..⟩

theorem legal_instance (hc : c.Legal roles.sig scope)
    (hscope : ∀ x ∈ scope, x.index < roles.sig.temps)
    (hblock : p.blocks[c.target.index]? = some block) {τ : Signature} (hτ : roles.sig.Le τ)
    (hsize : (block.code.copyFresh p.temps (({} : Subst).extendAll block.params c.args)).2.1.size ≤
      τ.temps) :
    (block.code.copyFresh p.temps (({} : Subst).extendAll block.params c.args)).1.Legal τ
      scope := by
  obtain ⟨hlen, hful⟩ := h.callee hc hblock
  have htemps := h.temps
  have hpos := roles.sig.temps_pos
  refine hful.legal.copyFresh hτ (by omega) hsize (fun x hx => ?_) fun x hx => htemps ▸ hscope x hx
  exact (hc.arguments hlen x hx).mono hτ fun _ => id

theorem runs_instance (hc : c.Legal roles.sig scope)
    (hblock : p.blocks[c.target.index]? = some block) (hle : roles.Le roles') {depth : Nat}
    {env : Env} {u : Use} {w w' : World} {e : Result} (hbelow : env.Below roles.sig.temps)
    (hrun : c.Runs (std.meaning roles') depth env u w e w') :
    ∃ n, u = .block n (roles'.rank c.target) ∧ std.Runs roles' depth n (roles'.rank c.target)
      (block.code.copyFresh p.temps (({} : Subst).extendAll block.params c.args)).1 env w e w' := by
  obtain ⟨-, hful⟩ := h.callee hc hblock
  obtain ⟨n, vs, rfl, hcarries, hbody⟩ := hful.runs_of_call hle hrun
  have htemps := h.temps
  have hpos := roles.sig.temps_pos
  exact ⟨n, rfl, hbody.copyFresh (by omega) hcarries (htemps ▸ hbelow)⟩

theorem refines_instance (hc : c.Legal roles.sig scope)
    (hblock : p.blocks[c.target.index]? = some block) :
    Refines std roles roles.sig.temps scope (.jump c)
      (block.code.copyFresh p.temps (({} : Subst).extendAll block.params c.args)).1 := by
  intro roles' hle depth cost rank env w e w' hbelow _ hrun
  obtain ⟨u, hu, _, ⟨⟩, hrun⟩ := hrun
  obtain ⟨n, rfl, hbody⟩ := h.runs_instance hc hblock hle hbelow hrun
  obtain hlt | ⟨hcost, hrank⟩ := hu
  · exact hbody.spare hlt rank
  · exact hbody.mono (.refl _) (.refl _) hcost (le_of_lt hrank)

end Faithful

end Callee

theorem Code.boundTemps_copyFresh {code : Code} {m : Temps} {s : Subst} {v : Temp}
    (hv : v ∈ named (code.copyFresh m s).1.boundTemps) : m.size ≤ v.index := by
  induction code generalizing m s with
  | bind vars t rest ih =>
    have hfresh := m.freshLikeAll_fresh vars
    simp only [Code.copyFresh, Code.boundTemps, named_append, List.mem_append] at hv
    obtain hv | hv := hv
    · exact (hfresh.bounds hv).1
    · exact le_trans hfresh.le (ih hv)
  | assert a ctor rest ih => exact ih hv
  | done | branch | switch => cases hv

namespace Code

section Sequence

variable {m : Meaning} {fits : List Ctor → Ctor → Prop} {body code rest : Code} {vars : List Temp}
  {depth n rank : Nat} {env env1 : Env} {w w1 w' : World} {e : Result}

/-- What comes after a body runs with what the body returned. The body may have more variables than
what comes after it. -/
theorem Runs.andThen (hdeepens : m.Deepens) (hcode : body.andThen vars rest = .ok code)
    {bound : Nat} (hfresh : ∀ v ∈ named body.boundTemps, bound ≤ v.index) (hbelow : env.Below bound)
    (hsub : env.Sub env1) {vs : List Value}
    (hbody : body.Runs m (.free fits) depth n rank env1 w (.returned vs) w1)
    (hlen : vs.length = vars.length) {left : Nat}
    (hrest : rest.Runs m (.free fits) (depth + 1) left 0 (env.bind vars vs) w1 e w') (rank' : Nat) :
    code.Runs m (.free fits) (depth + 1) (n + left) rank' env1 w e w' := by
  induction body generalizing code n rank rank' env1 w with
  | done t =>
    obtain rfl := Except.ok.inj hcode
    obtain ⟨u, hu, ht⟩ := hbody
    have hcost := hu.cost_le
    refine ⟨False.elim, u, .inr ⟨vs, w1, left, by simp only [Rules.free]; omega, ht, hlen, ?_⟩⟩
    exact (hrest.sub (hsub.bind vars vs)).mono (.refl m) (.refl _) le_rfl (Nat.zero_le _)
  | bind xs t rest' ih =>
    obtain ⟨code', hcode', rfl⟩ := map_eq_ok_iff.mp hcode
    rw [boundTemps, named_append] at hfresh
    obtain ⟨-, u, ⟨-, he, -⟩ | ⟨xvs, w2, left', hl, ht, hxlen, hbody⟩⟩ := hbody
    · cases he
    · refine ⟨False.elim, u, .inr ⟨xvs, w2, left' + left, ?_, ht.deepen hdeepens, hxlen, ?_⟩⟩
      · simp only [Rules.free] at hl ⊢
        omega
      · exact ih hcode' (fun v hv => hfresh v (List.mem_append_right _ hv))
          (hsub.bind_right hbelow (fun v hv => hfresh v (List.mem_append_left _ hv)) xvs) hbody _
  | assert a ctor rest' ih =>
    obtain ⟨code', hcode', rfl⟩ := map_eq_ok_iff.mp hcode
    obtain ⟨c, fields, left', ha, hc, hl, hbody⟩ := hbody
    refine ⟨c, fields, left' + left, ha, hc, ?_, ih hcode' hfresh hsub hbody rank'⟩
    simp only [Rules.free] at hl ⊢
    omega
  | branch | switch => cases hcode

theorem Runs.andThen_halted (hdeepens : m.Deepens) (hcode : body.andThen vars rest = .ok code)
    (hbody : body.Runs m (.free fits) depth n rank env1 w .halted w') {cost : Nat}
    (hcost : n < cost)
    (rank' : Nat) : code.Runs m (.free fits) (depth + 1) cost rank' env1 w .halted w' := by
  induction body generalizing code n rank cost rank' env1 w with
  | done t =>
    obtain rfl := Except.ok.inj hcode
    obtain ⟨u, hu, ht⟩ := hbody
    exact ⟨False.elim, u, .inl ⟨hu.widen (.inl hcost), rfl, ht⟩⟩
  | bind xs t rest' ih =>
    obtain ⟨code', hcode', rfl⟩ := map_eq_ok_iff.mp hcode
    obtain ⟨-, u, ⟨hu, he, ht⟩ | ⟨xvs, w2, left, hl, ht, hxlen, hbody⟩⟩ := hbody
    · exact ⟨False.elim, u, .inl ⟨hu.widen (.inl hcost), he, ht.deepen hdeepens⟩⟩
    · refine ⟨False.elim, u, .inr ⟨xvs, w2, left + 1, ?_, ht.deepen hdeepens, hxlen,
        ih hcode' hbody (Nat.lt_succ_self left) _⟩⟩
      simp only [Rules.free] at hl ⊢
      omega
  | assert a ctor rest' ih =>
    obtain ⟨code', hcode', rfl⟩ := map_eq_ok_iff.mp hcode
    obtain ⟨c, fields, left, ha, hc, hl, hbody⟩ := hbody
    refine ⟨c, fields, left + 1, ha, hc, ?_, ih hcode' hbody (Nat.lt_succ_self left) rank'⟩
    simp only [Rules.free] at hl ⊢
    omega
  | branch | switch => cases hcode

theorem Legal.andThen {σ τ : Signature} (hσ : σ.Le τ) {scope scope' : List Temp}
    (hcode : body.andThen vars rest = .ok code)
    (hfresh : ∀ v ∈ named body.boundTemps, σ.temps ≤ v.index) (hbody : body.Legal τ scope')
    (hsub : ∀ x ∈ scope, x ∈ scope') (hnew : ∀ x ∈ scope', x ∈ scope ∨ σ.temps ≤ x.index)
    (hvars : Binders σ scope vars) (hrest : rest.Legal σ (scope ++ named vars)) :
      code.Legal τ scope' := by
  induction body generalizing code scope' with
  | done t =>
    obtain rfl := Except.ok.inj hcode
    refine ⟨hbody, hvars.mono hσ hnew, hrest.mono hσ (fun x hx => ?_) fun x hx => ?_⟩
    · rw [List.mem_append] at hx ⊢
      exact hx.imp_left (hsub x)
    · rw [List.mem_append] at hx ⊢
      obtain hx | hx := hx
      · exact (hnew x hx).imp_left .inl
      · exact .inl (.inr hx)
  | bind xs t rest' ih =>
    obtain ⟨code', hcode', rfl⟩ := map_eq_ok_iff.mp hcode
    obtain ⟨ht, hxs, hbody⟩ := hbody
    rw [boundTemps, named_append] at hfresh
    refine ⟨ht, hxs, ih hcode' (fun v hv => hfresh v (List.mem_append_right _ hv)) hbody
      (fun x hx => List.mem_append_left _ (hsub x hx)) fun x hx => ?_⟩
    obtain hx | hx := List.mem_append.mp hx
    · exact hnew x hx
    · exact .inr (hfresh x (List.mem_append_left _ hx))
  | assert a ctor rest' ih =>
    obtain ⟨code', hcode', rfl⟩ := map_eq_ok_iff.mp hcode
    exact ⟨hbody.1, hbody.2.1, ih hcode' hfresh hbody.2.2 hsub hnew⟩
  | branch | switch => cases hcode

end Sequence

end Code

theorem Faithful.refines_andThen {std : Standard} {roles : Roles} {p : Program}
    (h : Faithful std roles (fun _ => False) p) {scope vars : List Temp} {c : Call} {block : Block}
    (hc : c.Legal roles.sig scope) (hblock : p.blocks[c.target.index]? = some block)
    {rest code : Code}
    (hcode : (block.code.copyFresh p.temps (({} : Subst).extendAll block.params c.args)).1.andThen
      vars
      rest = .ok code) :
    Refines std roles roles.sig.temps scope (.bind vars (.call c) rest) code := by
  intro roles' hle depth cost rank env w e w' hbelow _ hrun
  have hdeepens := std.meaning_deepens roles'
  have hfresh v (hv : v ∈ named (block.code.copyFresh p.temps
      (({} : Subst).extendAll block.params c.args)).1.boundTemps) : roles.sig.temps ≤ v.index :=
    h.temps ▸ Code.boundTemps_copyFresh hv
  obtain ⟨-, u, ⟨hu, rfl, depth, rfl, hrun⟩ | ⟨vs, w1, left, hl, ⟨depth, rfl, hrun⟩, hlen,
    hrest⟩⟩ := hrun
  · obtain ⟨n, rfl, hbody⟩ := h.runs_instance hc hblock hle hbelow hrun
    exact hbody.andThen_halted hdeepens hcode (Use.endsWithin_zero_iff.mp hu) rank
  · obtain ⟨n, rfl, hbody⟩ := h.runs_instance hc hblock hle hbelow hrun
    refine (hbody.andThen hdeepens hcode hfresh hbelow (.refl env) hlen hrest rank).more ?_
    simpa [Rules.free] using hl

end MonadicIR
