import MonadicIR.Proofs.Tidying

namespace MonadicIR

open List

/-- The call of a copy that gets the further arguments too. -/
structure Call.HandedOn (roles : Roles) (h : Handoff) (extras : List Temp) (c c' : Call) :
    Prop where
  args : c'.args = c.args ++ extras.map .temp
  role : roles.block c'.target = some (.handoff h c.target)

theorem Call.HandedOn.mono {roles roles' : Roles} (hle : roles.Le roles') {h : Handoff}
    {extras : List Temp} {c c' : Call} (hc : c.HandedOn roles h extras c') :
    c.HandedOn roles' h extras c' :=
  ⟨hc.args, hle.block hc.role⟩

/-- Whatever the first code returns is handed on by the second. -/
structure HandsOn (std : Standard) (roles : Roles) (h : Handoff) (extras : List Temp)
    (code code' : Code) : Prop where
  returned : ∀ ⦃roles'⦄, roles.Le roles' →
    ∀ ⦃depth n n' rank env given v f args w w1 e w'⦄,
      Atom.HasAll std.base.top env (extras.map .temp) given → h.Hands given v f args →
      std.Runs roles' depth n rank code env w (.returned [v]) w1 →
      (std.meaning roles').enter (depth + 2) n' f args w1 e w' →
        std.Runs roles' (depth + 1) (n + n') rank code' env w e w'
  halted : ∀ ⦃roles'⦄, roles.Le roles' → ∀ ⦃depth n rank env given w w'⦄,
    Atom.HasAll std.base.top env (extras.map .temp) given →
      std.Runs roles' depth n rank code env w .halted w' →
        std.Runs roles' (depth + 1) n rank code' env w .halted w'

/-- How a run ends after one that is handed on: it goes on with what takes the value, or halts. -/
inductive Handoff.Finishes (h : Handoff) (m : Meaning) (room : Nat) (given : List Value)
    (w : World) : Result → Nat → Result → World → Prop
  | returned {v f : Value} {args : List Value} {n : Nat} {e : Result} {w' : World}
      (hands : h.Hands given v f args) (henter : m.enter room n f args w e w') :
      Finishes h m room given w (.returned [v]) n e w'
  | halted : Finishes h m room given w .halted 0 .halted w

section HandsOn

variable {std : Standard} {roles roles' : Roles} {h : Handoff} {extras : List Temp}

theorem Atom.HasAll.bind_temps {tops : TopId → List Value → Prop} {env : Env} {xs vars : List Temp}
    {given vs : List Value} (h : Atom.HasAll tops env (xs.map .temp) given)
    (hxs : ∀ x ∈ xs, x ∉ vars) : Atom.HasAll tops (env.bind vars vs) (xs.map .temp) given := by
  rw [Atom.hasAll_temps] at h ⊢
  rw [← h]
  exact map_congr_left fun x hx => Env.lookup_bind_of_not_mem (hxs x hx)

theorem Call.HandedOn.runs (hcoherent : roles.Coherent) {c c' : Call}
    (hc : c.HandedOn roles h extras c')
    (hlen : extras.length = h.extras) (hle : roles.Le roles') {depth n n' rank : Nat} {env : Env}
    {given : List Value} {w w1 w' : World} {e1 e : Result} {u : Use}
    (hgiven : Atom.HasAll std.base.top env (extras.map .temp) given)
    (hends : h.Finishes (std.meaning roles') (depth + 2) given w1 e1 n' e w')
    (hu : u.EndsWithin n rank) (hrun : c.Runs (std.meaning roles') depth env u w e1 w1) :
    ∃ u', u'.EndsWithin (n + n') rank ∧ c'.Runs (std.meaning roles') (depth + 1) env u' w e w' := by
  obtain ⟨vs, k, hvs, rfl, hj⟩ := hrun
  obtain ⟨role, _, hrole, -, -, hrank⟩ := hcoherent.handoff hc.role
  have hrank' : roles'.rank c'.target = roles'.rank c.target := by
    rw [hle.rank hc.role, hle.rank hrole, hrank]
  have hglen : given.length = h.extras := by
    rw [← hlen, ← hgiven.length_eq, length_map]
  refine ⟨_, ?_, vs ++ given, k + n', ?_, rfl, ?_⟩
  · simp only [Use.EndsWithin, Standard.rank_meaning] at hu ⊢
    rw [hrank']
    omega
  · rw [hc.args]
    exact rel_append hvs hgiven
  · cases hends with
    | returned hands henter => exact .handoff (hle.block hc.role) hglen hands hj henter le_rfl
    | halted => exact .handoffHalts (hle.block hc.role) hglen hj le_rfl

theorem Tail.Runs.endsWithin_zero {m : Meaning} {room n rank : Nat} {env : Env} {t : Tail} {u : Use}
    {w w' : World} {e : Result} (hrun : t.Runs m room env u w e w') (ht : t.call? = none)
    (hu : u.EndsWithin n rank) : u.EndsWithin n 0 := by
  cases t with
  | call => cases ht
  | enter =>
    obtain ⟨_, _, _, -, -, rfl, -⟩ := hrun
    exact hu
  | ret | data | closure | sel | prim =>
    obtain ⟨rfl, -⟩ := hrun
    exact hu

namespace HandsOn

theorem iff_finishes {code code' : Code} : HandsOn std roles h extras code code' ↔
    ∀ ⦃roles'⦄, roles.Le roles' → ∀ ⦃depth n n' rank env given w w1 e1 e w'⦄,
      Atom.HasAll std.base.top env (extras.map .temp) given →
      h.Finishes (std.meaning roles') (depth + 2) given w1 e1 n' e w' →
      std.Runs roles' depth n rank code env w e1 w1 →
        std.Runs roles' (depth + 1) (n + n') rank code' env w e w' := by
  constructor
  · rintro hon roles' hle depth n n' rank env given w w1 _ _ _ hgiven (⟨hands, henter⟩ | _) hrun
    · exact hon.returned hle hgiven hands hrun henter
    · exact hon.halted hle hgiven hrun
  · refine fun hon => ⟨?_, ?_⟩
    · exact fun _ hle _ _ _ _ _ _ _ _ _ _ _ _ _ hgiven hands hrun henter =>
        hon hle hgiven (.returned hands henter) hrun
    · exact fun _ hle _ _ _ _ _ _ _ hgiven hrun => hon hle hgiven .halted hrun

theorem bind {vars : List Temp} {t : Tail} {rest rest' : Code} (hvars : ∀ x ∈ extras, x ∉ vars)
    (hrest : HandsOn std roles h extras rest rest') :
    HandsOn std roles h extras (.bind vars t rest) (.bind vars t rest') := by
  refine iff_finishes.mpr fun roles' hle depth n n' rank env given w w1 e1 e w' hgiven hends hrun =>
    ?_
  have hdeepens := std.meaning_deepens roles'
  obtain ⟨-, u, ⟨hu, rfl, ht⟩ | ⟨vs, w2, left, hl, ht, hlen, hrun⟩⟩ := hrun
  · cases hends
    exact ⟨False.elim, u, .inl ⟨hu, rfl, ht.deepen hdeepens⟩⟩
  · refine ⟨False.elim, u, .inr ⟨vs, w2, left + n', ?_, ht.deepen hdeepens, hlen,
      iff_finishes.mp hrest hle (hgiven.bind_temps hvars) hends hrun⟩⟩
    simp only [Rules.free] at hl ⊢
    omega

theorem assert {a : Atom} {ctor : Ctor} {rest rest' : Code}
    (hrest : HandsOn std roles h extras rest rest') :
    HandsOn std roles h extras (.assert a ctor rest) (.assert a ctor rest') := by
  refine iff_finishes.mpr fun roles' hle depth n n' rank env given w w1 e1 e w' hgiven hends hrun =>
    ?_
  obtain ⟨c, fields, left, ha, hc, hl, hrun⟩ := hrun
  refine ⟨c, fields, left + n', ha, hc, ?_, iff_finishes.mp hrest hle hgiven hends hrun⟩
  simp only [Rules.free] at hl ⊢
  omega

theorem jump (hcoherent : roles.Coherent) (hlen : extras.length = h.extras) {c c' : Call}
    (hc : c.HandedOn roles h extras c') : HandsOn std roles h extras (.jump c) (.jump c') := by
  refine iff_finishes.mpr fun roles' hle depth n n' rank env given w w1 e1 e w' hgiven hends hrun =>
    ?_
  obtain ⟨u, hu, _, ⟨⟩, hrun⟩ := hrun
  obtain ⟨u', hu', hrun'⟩ := hc.runs hcoherent hlen hle hgiven hends hu hrun
  exact ⟨u', hu', _, rfl, hrun'⟩

theorem branch (hcoherent : roles.Coherent) (hlen : extras.length = h.extras) {test : Atom}
    {yes no yes' no' : Call} (hyes : yes.HandedOn roles h extras yes')
    (hno : no.HandedOn roles h extras no') :
    HandsOn std roles h extras (.branch test yes no) (.branch test yes' no') := by
  have hpick (b : Bool) : (if b then yes else no).HandedOn roles h extras
    (if b then yes' else no') := by
    cases b <;> assumption
  refine iff_finishes.mpr fun roles' hle depth n n' rank env given w w1 e1 e w' hgiven hends hrun =>
    ?_
  obtain ⟨b, u, hb, hu, hrun⟩ := hrun
  obtain ⟨u', hu', hrun'⟩ := (hpick b).runs hcoherent hlen hle hgiven hends hu hrun
  exact ⟨b, u', hb, hu', hrun'⟩

theorem switch (hcoherent : roles.Coherent) (hlen : extras.length = h.extras) {a : Atom}
    {alts alts' : Alts} (halts : alts.Related (fun _ => Call.HandedOn roles h extras) alts') :
    HandsOn std roles h extras (.switch a alts) (.switch a alts') := by
  refine iff_finishes.mpr fun roles' hle depth n n' rank env given w w1 e1 e w' hgiven hends hrun =>
    ?_
  obtain ⟨c, fields, taken, u, ha, hsel, hfits, hu, hrun⟩ := hrun
  obtain ⟨-, taken', hsel', hc, -⟩ := halts.select hsel
  obtain ⟨u', hu', hrun'⟩ := hc.runs hcoherent hlen hle hgiven hends hu hrun
  exact ⟨c, fields, taken', u', ha, hsel', halts.ctors ▸ hfits, hu', hrun'⟩

theorem done_of_halted {t : Tail} (ht : ∀ ⦃m : Meaning⦄ ⦃room env u w e w'⦄,
    t.Runs m room env u w e w' → e = .halted) : HandsOn std roles h extras (.done t) (.done t) := by
  refine iff_finishes.mpr fun roles' hle depth n n' rank env given w w1 e1 e w' hgiven hends hrun =>
    ?_
  obtain rfl := ht hrun.choose_spec.2
  cases hends
  exact hrun.deepen (std.meaning_deepens roles')

theorem tail_runs {m : Meaning} {room n : Nat} {env : Env} {x : Temp} {v f : Value}
    {given args : List Value} {w w' : World} {e : Result} (hlen : extras.length = h.extras)
    (hx : env.lookup x = some v) (hgiven : Atom.HasAll m.top env (extras.map .temp) given)
    (hands : h.Hands given v f args) (henter : m.enter room n f args w e w') :
    (h.tail extras x).Runs m room env (.closure n) w e w' := by
  cases h with
  | continuation =>
    obtain ⟨rfl, rfl⟩ := hands
    obtain ⟨y, rfl⟩ := length_eq_one_iff.mp hlen
    obtain _ | ⟨hy, -⟩ := hgiven
    exact ⟨f, [v], n, hy, .cons hx .nil, rfl, henter⟩
  | enter arity =>
    obtain ⟨rfl, rfl⟩ := hands
    exact ⟨f, args, n, hx, hgiven, rfl, henter⟩

theorem done {t : Tail} (ht : t.call? = none) {x : Temp} (hx : x.isWildcard = false)
    (hnew : x ∉ extras) (hlen : extras.length = h.extras) :
    HandsOn std roles h extras (.done t) (.bind [x] t (.done (h.tail extras x))) := by
  refine ⟨fun roles' hle depth n n' rank env given v f args w w1 e w' hgiven hands hrun henter =>
    ?_, fun roles' hle depth n rank env given w w' hgiven hrun => ?_⟩
  · obtain ⟨u, hu, hrun⟩ := hrun
    have hcost := Use.endsWithin_zero_iff.mp (hrun.endsWithin_zero ht hu)
    refine ⟨False.elim, u, .inr ⟨[v], w1, n' + 1, ?_, hrun, rfl, .closure n', Nat.lt_succ_self n',
      ?_⟩⟩
    · simp only [Rules.free]
      omega
    · refine tail_runs hlen ?_ (hgiven.bind_temps fun y hy => ?_) hands henter
      · rw [Env.bind_cons]
        exact Env.lookup_put.trans (if_pos ⟨rfl, hx⟩)
      · rintro hyx
        exact hnew (mem_singleton.mp hyx ▸ hy)
  · obtain ⟨u, hu, hrun⟩ := hrun
    exact ⟨False.elim, u, .inl ⟨hrun.endsWithin_zero ht hu, rfl, hrun⟩⟩

end HandsOn

end HandsOn

/-- Gives the copies of blocks that were there at the start, and makes them if need be. Those whose
bodies are pending were not there. -/
def Derives (std : Standard) (h : Handoff) (roles0 : Roles) (p0 : Program)
    (derive : BlockId → Pass BlockId) : Prop :=
  ∀ ⦃b role d s s' roles pending⦄, roles0.block b = some role →
    (∀ x, pending x → roles0.block x = none) → Progress std pending roles0 p0 roles s.program →
    derive b s = .ok d s' → ∃ roles', Progress std pending roles s.program roles' s'.program ∧
      roles'.block d = some (.handoff h b)

namespace Pass

section HandOff

variable {std : Standard} {h : Handoff} {roles0 : Roles} {p0 : Program} {derive : BlockId →
  Pass BlockId}
  (hderive : Derives std h roles0 p0 derive) {σ : Signature}
  (hσ : ∀ ⦃b n⦄, σ.block b = some n → ∃ role, roles0.block b = some role) {pending : BlockId → Prop}
  (hpending : ∀ x, pending x → roles0.block x = none) {roles : Roles} {extras scope : List Temp}
  {s s' : Workbench}

include hderive hσ hpending

variable (hstart : Progress std pending roles0 p0 roles s.program)

include hstart

theorem handOffCall_spec {c c' : Call} (hc : c.Legal σ scope)
    (hcall : handOffCall extras derive c s = .ok c' s') :
    ∃ roles', Progress std pending roles s.program roles' s'.program ∧
      c.HandedOn roles' h extras c' := by
  simp only [handOffCall, bind_ok_iff, pure_ok_iff] at hcall
  obtain ⟨d, _, hd, rfl, rfl⟩ := hcall
  obtain ⟨role, hrole⟩ := hσ hc.shaped
  obtain ⟨roles', hprogress, hd'⟩ := hderive hrole hpending hstart hd
  exact ⟨roles', hprogress, rfl, hd'⟩

theorem handOffArms_spec {arms arms' : List Arm} (hc : ∀ arm ∈ arms, arm.call.Legal σ scope)
    (harms : handOffArms extras derive arms s = .ok arms' s') :
    ∃ roles', Progress std pending roles s.program roles' s'.program ∧
      List.Forall₂ (fun x y => y.ctor = x.ctor ∧ x.call.HandedOn roles' h extras y.call) arms
        arms' := by
  induction arms generalizing s roles arms' with
  | nil =>
    simp only [handOffArms, pure_ok_iff] at harms
    obtain ⟨rfl, rfl⟩ := harms
    exact ⟨roles, hstart.faithful.stay, .nil⟩
  | cons arm arms ih =>
    simp only [handOffArms, bind_ok_iff, pure_ok_iff] at harms
    obtain ⟨c', s1, hcall, arms', _, harms, rfl, rfl⟩ := harms
    obtain ⟨roles1, hp1, hc1⟩ := handOffCall_spec hderive hσ hpending hstart
      (hc arm (.head ..)) hcall
    obtain ⟨roles2, hp2, hall⟩ := ih (hstart.trans hp1)
      (fun x hx => hc x (.tail _ hx)) harms
    exact ⟨roles2, hp1.trans hp2, .cons ⟨rfl, hc1.mono hp2.le⟩ hall⟩

theorem handOffDefault_spec {default default' : Option Call} (hc : ∀ c ∈ default, c.Legal σ scope)
    (hdefault : handOffDefault extras derive default s = .ok default' s') :
    ∃ roles', Progress std pending roles s.program roles' s'.program ∧
      Option.Rel (Call.HandedOn roles' h extras) default default' := by
  cases default with
  | none =>
    simp only [handOffDefault, pure_ok_iff] at hdefault
    obtain ⟨rfl, rfl⟩ := hdefault
    exact ⟨roles, hstart.faithful.stay, .none⟩
  | some c =>
    simp only [handOffDefault, bind_ok_iff, pure_ok_iff] at hdefault
    obtain ⟨c', _, hcall, rfl, rfl⟩ := hdefault
    obtain ⟨roles', hp, hc'⟩ := handOffCall_spec hderive hσ hpending hstart (hc c rfl) hcall
    exact ⟨roles', hp, .some hc'⟩

end HandOff

end Pass

variable {σ : Signature} {h : Handoff}

/-- A call of a copy with the further arguments is legal where the call of its source is. -/
theorem Roles.Coherent.legal_call {roles : Roles} (hcoherent : roles.Coherent) {c : Call}
    {d : BlockId} (hd : roles.block d = some (.handoff h c.target)) (hσ : σ.Le roles.sig)
    {scope scope' : List Temp} (hlegal : c.Legal σ scope) (hscope : ∀ x ∈ scope, x ∈ scope')
    {extras : List Atom} (hextras : ∀ a ∈ extras, a.Legal roles.sig scope')
    (hlen : extras.length = h.extras) : Call.Legal roles.sig scope' ⟨d, c.args ++ extras⟩ := by
  obtain ⟨role, n, -, hn, hn', -⟩ := hcoherent.handoff hd
  obtain rfl : n = c.args.length := Option.mem_unique hn (hσ.block hlegal.shaped)
  refine ⟨fun a ha => ?_, ?_⟩
  · obtain ha | ha := mem_append.mp ha
    · exact (hlegal.atoms a ha).mono hσ hscope
    · exact hextras a ha
  · show roles.sig.block d = _
    rw [hn', length_append, hlen]

theorem Call.HandedOn.legal {roles : Roles} (hcoherent : roles.Coherent) {extras scope : List Temp}
    {c c' : Call} (hc : c.HandedOn roles h extras c') (hσ : σ.Le roles.sig)
    (hlegal : c.Legal σ scope) (hscope : ∀ x ∈ extras, x ∈ scope)
    (hlen : extras.length = h.extras) : c'.Legal roles.sig scope := by
  obtain ⟨d, args⟩ := c'
  obtain rfl : args = c.args ++ extras.map .temp := hc.args
  refine hcoherent.legal_call hc.role hσ hlegal (fun _ => id) (fun a ha => ?_) (by simpa using hlen)
  obtain ⟨x, hx, rfl⟩ := mem_map.mp ha
  exact hscope x hx

theorem Handoff.legal_tail (h : Handoff) {extras scope : List Temp} {x : Temp} (hx : x ∈ scope)
    (hscope : ∀ y ∈ extras, y ∈ scope) (hlen : extras.length = h.extras) :
    (h.tail extras x).Legal σ scope := by
  cases h with
  | continuation =>
    obtain ⟨y, rfl⟩ := length_eq_one_iff.mp hlen
    refine ⟨fun a ha => ?_, trivial⟩
    simp only [Handoff.tail, Tail.atoms, headD_cons, mem_cons, not_mem_nil,
      or_false] at ha
    obtain rfl | rfl := ha
    · exact hscope y (mem_singleton_self y)
    · exact hx
  | enter arity =>
    refine ⟨fun a ha => ?_, trivial⟩
    simp only [Handoff.tail, Tail.atoms, mem_cons, mem_map] at ha
    obtain rfl | ⟨y, hy, rfl⟩ := ha
    · exact hx
    · exact hscope y hy

theorem Tail.halted_of_neverReturns {p : Program} {t : Tail} {never : Bool} (hcall : t.call? = none)
    (h : (t.blackholes || never) = true) (hn : p.tailNeverReturns t = .ok never) {m : Meaning}
    {room : Nat} {env : Env} {u : Use} {w w' : World} {e : Result}
    (hrun : t.Runs m room env u w e w') : e = .halted := by
  refine hrun.of_blackholes ?_
  cases t with
  | prim q args =>
    obtain rfl := Except.ok.inj hn
    cases q <;> simp_all [Tail.blackholes, Prim.blackholes, Prim.purity]
  | call => cases hcall
  | ret | enter | data | closure | sel =>
    obtain rfl := Except.ok.inj hn
    simpa using h

theorem Pass.handOffCode_done {extras : List Temp} {derive : BlockId → Pass BlockId} {t : Tail}
    (ht : t.call? = none) : handOffCode h extras derive (.done t) = (do
      let never ← look (·.tailNeverReturns t)
      if t.blackholes || never then return .done t
      let v ← edit Edit.fresh
      return .bind [v] t (.done (h.tail extras v))) := by
  cases t <;> first | rfl | cases ht

namespace Pass

section HandOff

variable {std : Standard} {h : Handoff} {roles0 : Roles} {p0 : Program} {derive : BlockId →
  Pass BlockId}
  (hderive : Derives std h roles0 p0 derive) {σ : Signature}
  (hσ : ∀ ⦃b n⦄, σ.block b = some n → ∃ role, roles0.block b = some role) {pending : BlockId → Prop}
  (hpending : ∀ x, pending x → roles0.block x = none) {roles : Roles} {extras scope : List Temp}
  {s s' : Workbench}

include hderive hσ hpending

theorem handOffCode_spec (hlen : extras.length = h.extras)
    (hnamed : ∀ x ∈ extras, x.isWildcard = false)
    (hstart : Progress std pending roles0 p0 roles s.program) (hle : σ.Le roles.sig)
    {code code' : Code} (hlegal : code.Legal σ scope) (hextras : ∀ x ∈ extras, x ∈ scope)
    (hscope : ∀ x ∈ scope, x.index < roles.sig.temps)
    (hcode : handOffCode h extras derive code s = .ok code' s') :
    ∃ roles', Progress std pending roles s.program roles' s'.program ∧
      code'.Legal roles'.sig scope ∧ HandsOn std roles' h extras code code' := by
  induction code generalizing s roles scope code' s' with
  | bind vars t rest ih =>
    obtain ⟨htail, hvars, hrest⟩ := hlegal
    simp only [handOffCode, bind_ok_iff, pure_ok_iff] at hcode
    obtain ⟨rest', _, hrest', rfl, rfl⟩ := hcode
    have hscope' : ∀ x ∈ scope ++ named vars, x.index < roles.sig.temps := by
      intro x hx
      obtain hx | hx := mem_append.mp hx
      · exact hscope x hx
      · exact lt_of_lt_of_le (hvars.allocated x hx) hle.temps
    obtain ⟨roles', hp, hlegal', hands⟩ := ih hstart hle hrest
      (fun x hx => mem_append_left _ (hextras x hx)) hscope' hrest'
    have hle' := hle.trans hp.le.sig
    refine ⟨roles', hp, ⟨htail.mono hle' fun _ => id, hvars.le hle', hlegal'⟩,
      hands.bind fun x hx hmem => ?_⟩
    exact hvars.new x (mem_named.mpr ⟨hmem, hnamed x hx⟩) (hextras x hx)
  | assert a ctor rest ih =>
    obtain ⟨ha, hctor, hrest⟩ := hlegal
    simp only [handOffCode, bind_ok_iff, pure_ok_iff] at hcode
    obtain ⟨rest', _, hrest', rfl, rfl⟩ := hcode
    obtain ⟨roles', hp, hlegal', hands⟩ := ih hstart hle hrest hextras hscope hrest'
    have hle' := hle.trans hp.le.sig
    exact ⟨roles', hp, ⟨ha.mono hle' fun _ => id, hle'.ctor hctor, hlegal'⟩, hands.assert⟩
  | done t =>
    cases hcall : t.call? with
    | some c =>
      obtain rfl : t = .call c := by cases t <;> simp_all [Tail.call?]
      simp only [handOffCode, bind_ok_iff, pure_ok_iff] at hcode
      obtain ⟨c', _, hc', rfl, rfl⟩ := hcode
      obtain ⟨roles', hp, hands⟩ := handOffCall_spec hderive hσ hpending hstart hlegal hc'
      have hcoherent := hp.faithful.coherent
      exact ⟨roles', hp, hands.legal hcoherent (hle.trans hp.le.sig) hlegal hextras hlen,
        .jump hcoherent hlen hands⟩
    | none =>
      rw [handOffCode_done hcall] at hcode
      simp only [bind_ok_iff, look_eq_ok_iff] at hcode
      obtain ⟨never, s1, ⟨hnever, hs1⟩, hcode⟩ := hcode
      rw [hs1] at hcode
      split at hcode
      · rename_i hhalts
        simp only [pure_ok_iff] at hcode
        obtain ⟨rfl, rfl⟩ := hcode
        exact ⟨roles, hstart.faithful.stay, Tail.Legal.mono hle (fun _ => id) hlegal,
          .done_of_halted fun _ _ _ _ _ _ _ => Tail.halted_of_neverReturns hcall hhalts hnever⟩
      · simp only [bind_ok_iff, edit_eq_ok_iff, pure_ok_iff] at hcode
        obtain ⟨x, _, ⟨q, hfresh, rfl⟩, rfl, rfl⟩ := hcode
        obtain ⟨rfl, m, rfl, hm⟩ := Edit.fresh_ok hfresh
        have htemps := hstart.faithful.temps
        have hp := hstart.faithful.withTemps (m := m) (by omega)
        have hle' := hle.trans hp.le.sig
        have hx : Temp.isWildcard ⟨s.program.temps.size⟩ = false := by
          have := roles.sig.temps_pos
          simp only [Temp.isWildcard, beq_eq_false_iff_ne]
          omega
        have hnew : ⟨s.program.temps.size⟩ ∉ scope := fun hmem => by
          have := hscope _ hmem
          simp only at this
          omega
        have hmem : ⟨s.program.temps.size⟩ ∈ scope ++ named [⟨s.program.temps.size⟩] :=
          mem_append_right _ (mem_named.mpr ⟨mem_singleton_self _, hx⟩)
        refine ⟨_, hp, ⟨Tail.Legal.mono hle' (fun _ => id) hlegal, ⟨?_, ?_, ?_⟩,
          h.legal_tail hmem (fun y hy => mem_append_left _ (hextras y hy)) hlen⟩,
          .done hcall hx (fun hxe => hnew (hextras _ hxe)) hlen⟩
        · exact (nodup_singleton _).filter _
        · intro y hy
          rwa [mem_singleton.mp (mem_named.mp hy).1]
        · intro y hy
          rw [mem_singleton.mp (mem_named.mp hy).1]
          show s.program.temps.size < m.size
          omega
  | branch test yes no =>
    obtain ⟨htest, hyes, hno⟩ := hlegal
    simp only [handOffCode, bind_ok_iff, pure_ok_iff] at hcode
    obtain ⟨yes', s1, hyes', no', _, hno', rfl, rfl⟩ := hcode
    obtain ⟨roles1, hp1, hands1⟩ := handOffCall_spec hderive hσ hpending hstart hyes hyes'
    obtain ⟨roles2, hp2, hands2⟩ :=
      handOffCall_spec hderive hσ hpending (hstart.trans hp1) hno hno'
    have hp := hp1.trans hp2
    have hle' := hle.trans hp.le.sig
    have hcoherent := hp.faithful.coherent
    have hands1 := hands1.mono hp2.le
    exact ⟨roles2, hp, ⟨htest.mono hle' fun _ => id, hands1.legal hcoherent hle' hyes hextras hlen,
      hands2.legal hcoherent hle' hno hextras hlen⟩, .branch hcoherent hlen hands1 hands2⟩
  | switch a alts =>
    obtain ⟨ha, hcalls, halts⟩ := hlegal
    simp only [handOffCode, bind_ok_iff, pure_ok_iff] at hcode
    obtain ⟨arms', s1, harms, default', _, hdefault, rfl, rfl⟩ := hcode
    obtain ⟨roles1, hp1, hands1⟩ := handOffArms_spec hderive hσ hpending hstart
      (fun arm harm => hcalls _ (mem_append_left _ (mem_map_of_mem harm))) harms
    obtain ⟨roles2, hp2, hands2⟩ := handOffDefault_spec hderive hσ hpending (hstart.trans hp1)
      (fun c hc => hcalls c (mem_append_right _ (by simpa using hc))) hdefault
    have hp := hp1.trans hp2
    have hle' := hle.trans hp.le.sig
    have hcoherent := hp.faithful.coherent
    have hrelated : alts.Related (fun _ => Call.HandedOn roles2 h extras) ⟨arms', default'⟩ :=
      ⟨hands1.imp fun _ _ hxy => ⟨hxy.1, hxy.2.mono hp2.le⟩, hands2⟩
    refine ⟨roles2, hp, ⟨ha.mono hle' fun _ => id, fun c' hc' => ?_,
      hrelated.legal (halts.mono hle')⟩, .switch hcoherent hlen hrelated⟩
    obtain ⟨-, c, hc, hcc'⟩ := hrelated.calls hc'
    exact hcc'.legal hcoherent hle' (hcalls c hc) hextras hlen

end HandOff

end Pass

section Copy

variable {std : Standard} {roles roles' : Roles} {h : Handoff} {params own extras : List Temp}
  {n : Nat} {m1 m2 : Temps}

theorem Temp.isWildcard_of_le {t : Temp} (hn : 0 < n) (h : n ≤ t.index) : t.isWildcard = false := by
  simp only [isWildcard, beq_eq_false_iff_ne]
  omega

/-- A copy with parameters of its own, and further ones, runs as its source does. -/
theorem Code.Runs.copyFresh_entry {meaning : Meaning} {r : Rules} {depth cost rank : Nat}
    {code : Code} {args : List Value} {w w' : World} {e : Result}
    (hrun : code.Runs meaning r depth cost rank (Env.bind [] params args) w e w') (hn : 0 < n)
    (hown : Fresh n params own m1.size) (hextras : Fresh m1.size extras extras m2.size)
    (hargs : args.length = params.length) (given : List Value) :
    (code.copyFresh m2 (({} : Subst).renameAll params own)).1.Runs meaning r depth cost rank
      (Env.bind [] (own ++ extras) (args ++ given)) w e w' := by
  have hnil : Env.Below [] n := fun _ _ h => nomatch h
  have hempty : ({} : Subst).Carries meaning.top [] [] := .nil
  obtain ⟨hcarries, hbelow⟩ := hown.carries hn hempty hnil hargs
  rw [Env.bind_append (hown.length_eq.trans hargs.symm)]
  have hsub := (Env.Sub.refl (Env.bind [] own args)).bind_right hbelow
    (fun v hv => (hextras.bounds hv).1) given
  refine hrun.copyFresh (lt_of_lt_of_le hn (le_trans hown.le hextras.le))
    (fun _ _ hx => (hcarries hx).sub hsub) ?_
  exact (hbelow.mono hextras.le).bind (fun v hv => (hextras.bounds hv).2) given

theorem Code.Legal.copyFresh_entry {σ τ : Signature} (hσ : σ.Le τ) {code : Code}
    (hlegal : code.Legal σ (named params)) (hn : 0 < n) (hown : Fresh n params own m1.size)
    (hextras : Fresh m1.size extras extras m2.size)
    (hsize : (code.copyFresh m2 (({} : Subst).renameAll params own)).2.1.size ≤ τ.temps) :
    (code.copyFresh m2 (({} : Subst).renameAll params own)).1.Legal τ (named (own ++ extras)) := by
  have hempty : ∀ x ∈ ([] : List Temp), (({} : Subst).apply (.temp x)).Legal τ [] := by simp
  refine hlegal.copyFresh hσ (lt_of_lt_of_le hn (le_trans hown.le hextras.le)) hsize
    (fun x hx => ?_) fun x hx => ((hown.append hextras).bounds hx).2
  refine (hown.legal hn hempty x (by simpa using hx)).mono (.refl τ) fun y hy => ?_
  rw [named_append]
  exact mem_append_left _ hy

theorem Block.Fulfils.handsOn {b d : BlockId} {block : Block} {role : BlockRole}
    (hful : block.Fulfils std roles b) (hb : roles.block b = some role) (hle : roles.Le roles')
    (hn : 0 < n) (hown : Fresh n block.params own m1.size)
    (hextras : Fresh m1.size extras extras m2.size) (hlen : extras.length = h.extras)
    (hnamed : ∀ x ∈ extras, x.isWildcard = false) {copy : Block}
    (hparams : copy.params = own ++ extras) (hands : HandsOn std roles' h extras
      (block.code.copyFresh m2 (({} : Subst).renameAll block.params own)).1 copy.code)
    (hd : roles'.block d = some (.handoff h b)) (hrank : roles'.rank d = roles'.rank b) :
    ∀ ⦃roles''⦄, roles'.Le roles'' → copy.Meets (std.meaning roles'') std.fits d := by
  intro roles'' hle' depth cost all w e w' hj
  have hd' := hle'.block hd
  have hrank' : (std.meaning roles'').rank d = (std.meaning roles'').rank b := by
    simp only [Standard.rank_meaning]
    rw [hle'.rank hd, hle'.rank (hle.block hb), hrank]
  rw [hparams, hrank']
  have hbound {args given : List Value} (hargs : own.length = args.length)
      (hgiven : given.length = h.extras) : Atom.HasAll std.base.top
        (Env.bind [] (own ++ extras) (args ++ given)) (extras.map .temp) given := by
    rw [Env.bind_append hargs, Atom.hasAll_temps]
    have hnodup := named_eq_self hnamed ▸ hextras.nodup
    exact Env.map_lookup_bind hnodup hnamed (hlen.trans hgiven.symm)
  cases hj with
  | @handoff depth _ k k' _ h' source args given v f entered w w1 e w' hb' hgiven hands' hrun henter
    hcost =>
    obtain ⟨rfl, rfl⟩ : h' = h ∧ source = b := by
      simpa using hb'.symm.trans hd'
    obtain ⟨hargs, hrun⟩ := hful.meets (hle.trans hle') hrun
    have hrun := hrun.copyFresh_entry hn hown hextras hargs.symm given
    have hargs' := hown.length_eq.trans hargs
    refine ⟨by simp [hargs', hlen, hgiven], ?_⟩
    exact (hands.returned hle' (hbound hargs' hgiven) hands' hrun henter).more hcost
  | @handoffHalts depth _ k _ h' source args given w w' hb' hgiven hrun hcost =>
    obtain ⟨rfl, rfl⟩ : h' = h ∧ source = b := by
      simpa using hb'.symm.trans hd'
    obtain ⟨hargs, hrun⟩ := hful.meets (hle.trans hle') hrun
    have hrun := hrun.copyFresh_entry hn hown hextras hargs.symm given
    have hargs' := hown.length_eq.trans hargs
    refine ⟨by simp [hargs', hlen, hgiven], ?_⟩
    exact (hands.halted hle' (hbound hargs' hgiven) hrun).more hcost
  | original hb' => cases hb'.symm.trans hd'
  | fork hb' => cases hb'.symm.trans hd'

end Copy

namespace Pass

variable {std : Standard} {h : Handoff} {s s' : Workbench}

theorem derivedBlock?_eq_some {p : Program} {source : Block} {fits : Origin → Bool} {d : BlockId}
    (hd : p.derivedBlock? source fits = some d) :
    d ∈ source.derived ∧ ∃ copy, p.blocks[d.index]? = some copy ∧ fits copy.origin = true := by
  refine ⟨mem_of_find?_eq_some hd, ?_⟩
  simpa [Option.any_eq_true] using List.find?_some hd

/-- A copy is found, or it is made: first its parameters, then its place, then its body. -/
theorem deriveHandoff_eq_ok {fuel : Nat} {b d : BlockId}
    (hd : deriveHandoff h (fuel + 1) b s = .ok d s') :
    ∃ block, s.program.blocks[b.index]? = some block ∧
      ((s' = s ∧ d ∈ block.derived ∧ ∃ copy, s.program.blocks[d.index]? = some copy ∧
        copy.origin = h.origin (block.origin.depth + 1)) ∨
      ∃ own extras m1 m2 q s2 code new,
        Fresh s.program.temps.size block.params own (Temps.size m1) ∧
        Fresh m1.size extras extras (Temps.size m2) ∧ extras.length = h.extras ∧
        (∀ x ∈ extras, m1.size ≤ x.index) ∧
        Edit.addDerivedBlock b { Block.placeholder with
            params := own ++ extras, origin := h.origin (block.origin.depth + 1) }
          { s.program with
            temps := (block.code.copyFresh m2 (({} : Subst).renameAll block.params own)).2.1 } =
          .ok d q ∧
        handOffCode h extras (deriveHandoff h fuel)
          (block.code.copyFresh m2 (({} : Subst).renameAll block.params own)).1
          { s with program := q } = .ok code s2 ∧
        s2.program.blocks[d.index]? = some new ∧
        s' = { s2 with program := s2.program.setBlock d { new with code } }) := by
  simp only [deriveHandoff, bind_ok_iff, look_eq_ok_iff, Program.block_eq_ok_iff,
    get_ok_iff] at hd
  obtain ⟨block, s1, ⟨hblock, hs1⟩, s2, s3, ⟨hs2, hs3⟩, hd⟩ := hd
  rw [hs3, hs2, hs1] at hd
  refine ⟨block, hblock, ?_⟩
  cases hfound : s.program.derivedBlock? block (· == h.origin (block.origin.depth + 1)) with
  | some found =>
    simp only [hfound, pure_ok_iff] at hd
    obtain ⟨rfl, rfl⟩ := hd
    obtain ⟨hmem, copy, hcopy, horigin⟩ := derivedBlock?_eq_some hfound
    exact .inl ⟨rfl, hmem, copy, hcopy, by simpa using horigin⟩
  | none =>
    simp only [hfound, bind_ok_iff, edit_eq_ok_iff, pure_ok_iff,
      Edit.modifyBlock_eq_ok_iff, exists_unit] at hd
    obtain ⟨own, _, ⟨p1, hown, rfl⟩, extras, _, ⟨p2, hextras, rfl⟩, ⟨copy, subst⟩, _,
      ⟨p3, hcopy, rfl⟩,
      d', _, ⟨p4, hadd, rfl⟩, code, s4, hcode, _, ⟨p5, ⟨new, hnew, rfl⟩, rfl⟩, rfl, rfl⟩ := hd
    obtain ⟨m1, rfl, hfresh⟩ := Edit.freshParams_ok hown
    obtain ⟨m2, rfl, hfresh', hlen, hle⟩ := Edit.freshN_ok hextras
    obtain ⟨rfl, rfl⟩ := Edit.copyFresh_ok hcopy
    exact .inr ⟨own, extras, m1, m2, p4, s4, code, new, hfresh, hfresh', hlen, hle, hadd, hcode,
      hnew, rfl⟩

theorem deriveHandoff_spec {roles0 : Roles} {p0 : Program}
    (h0 : Faithful std roles0 (fun _ => False) p0)
    (fuel : Nat) : Derives std h roles0 p0 (deriveHandoff h fuel) := by
  induction fuel with
  | zero =>
    intro b role d s s' roles pending _ _ _ hd
    simp [deriveHandoff] at hd
  | succ fuel ih =>
    intro b role d s s' roles pending hb hpending hstart hd
    obtain ⟨block0, hblock0, hlen0, hparams0, hful0⟩ := h0.block hb
    obtain ⟨derived, hkept⟩ := hstart.keeps.block hblock0
    obtain ⟨block, hblock, hd⟩ := deriveHandoff_eq_ok hd
    obtain rfl := Option.mem_unique hkept hblock
    have hF := hstart.faithful
    have hbrole := hstart.le.block hb
    obtain ⟨rfl, hmem, copy, hcopy, horigin⟩ | ⟨own, extras, m1, m2, q, s2, code, new, hown,
      hextras, hlen, hle, hadd, hcode, hnew, rfl⟩ := hd
    · refine ⟨roles, hF.stay, ?_⟩
      obtain ⟨copy', hcopy', hrole⟩ := hF.derived hbrole hblock hmem
      obtain rfl := Option.mem_unique hcopy hcopy'
      refine hrole _ ?_
      rw [horigin]
      cases h <;> rfl
    · have htemps := hF.temps
      have hpos := roles.sig.temps_pos
      have hsize := block0.code.size_copyFresh m2 (({} : Subst).renameAll block0.params own)
      have hm1 := hown.le
      have hm2 := hextras.le
      have hnamed : ∀ x ∈ extras, x.isWildcard = false := fun x hx =>
        Temp.isWildcard_of_le (lt_of_lt_of_le (htemps ▸ hpos) hm1) (hle x hx)
      -- the variables of the copy come first, and then the place for it
      have hp1 := hF.withTemps (m := (block0.code.copyFresh m2
        (({} : Subst).renameAll block0.params own)).2.1) (by omega)
      have hall := hown.append hextras
      have hbinders : Binders (roles.withTemps _ hp1.le.sig.temps).sig [] (own ++ extras) :=
        hall.binders (fun _ hx => nomatch hx) hsize
      obtain ⟨rfl, hplace, hp2⟩ := hp1.faithful.addDerivedBlock
        (fun x => pending x ∨ x = ⟨s.program.blocks.size⟩) (.handoff h b) (roles.rank b) hadd hbrole
        (fun x hx hpx => hx (.inl hpx)) hbinders (fun hx => (hx (.inr rfl)).elim) rfl rfl
        (by cases h <;> simp [Handoff.origin, Origin.role?])
        (by
          rintro hand source ⟨⟩
          exact ⟨role, _, hbrole, hstart.le.sig.block hlen0, by simp [hown.length_eq, hlen], rfl⟩)
      have hp12 := hp1.trans hp2
      have hstart' := hstart.trans hp12
      have hlegal := (hful0 id).legal.copyFresh_entry
        (Roles.le_withTemps (hstart.trans hp1).le.sig.temps).sig (htemps ▸ hpos) hown hextras
        le_rfl
      have hroles ⦃c n⦄ (hc : (roles0.withTemps _ (hstart.trans hp1).le.sig.temps).sig.block c =
        some n) :
          ∃ role, roles0.block c = some role := h0.role hc
      have hpending' (x : BlockId) (hx : pending x ∨ x = ⟨s.program.blocks.size⟩) :
          roles0.block x = none := by
        obtain hx | rfl := hx
        · exact hpending x hx
        · refine Option.eq_none_iff_forall_ne_some.mpr fun r hr => ?_
          have := hstart.le.block hr
          simp [hF.newBlock.1] at this
      -- now the body, which may need further copies
      obtain ⟨roles3, hp3, hlegal', hands⟩ := handOffCode_spec ih hroles hpending' hlen hnamed
        hstart'
        ⟨hstart'.le.sig.block, hstart'.le.sig.closure, hstart'.le.sig.top, hstart'.le.sig.ctor,
          le_rfl⟩ hlegal
        (fun x hx => mem_named.mpr ⟨mem_append_right _ hx, hnamed x hx⟩)
        (fun x hx => lt_of_lt_of_le (hall.bounds hx).2 hsize) hcode
      have hrole3 : roles3.block ⟨s.program.blocks.size⟩ = some (.handoff h b) :=
        hp3.le.block (Roles.addBlock_self ..)
      obtain ⟨-, -, -, -, -, hrank⟩ := hp3.faithful.coherent.handoff hrole3
      obtain ⟨derived', hplace'⟩ := hp3.keeps.block hplace
      obtain rfl := Option.mem_unique hplace' hnew
      have hp := hp12.trans hp3
      refine ⟨roles3, ⟨hp.le, hp.keeps.setNew hnew (by simp) _, ?_⟩, hrole3⟩
      refine hp3.faithful.setBlock hnew (fun x hx hnp hpx => hpx.elim hnp hx) rfl rfl rfl
        (fun _ _ _ => ⟨hlegal', ?_⟩) fun x hx => .inl hx
      exact (hful0 id).handsOn hb (hstart.trans hp).le (htemps ▸ hpos) hown hextras hlen hnamed rfl
        hands
        hrole3 hrank

end Pass

end MonadicIR
