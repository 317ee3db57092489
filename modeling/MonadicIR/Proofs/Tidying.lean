import MonadicIR.Optimiser.Cases
import MonadicIR.Optimiser.Tidy
import MonadicIR.Proofs.Faithful

namespace MonadicIR

open List

section Tails

variable {m : Meaning} {room : Nat} {env : Env} {t : Tail} {u : Use} {w w' : World} {e : Result}

theorem Prim.effect_of_blackholes {q : Prim} (hq : q.blackholes = true) {args : List Value}
    (h : q.effect args w = some (e, w')) : e = .halted := by
  cases q.request args with
  | halt =>
    cases h
    rfl
  | loop => cases h
  | load | store | print | ticks => cases hq
  | value _ heffect =>
    obtain ⟨v, hv, -⟩ := computed_eq_some_iff.mp ((heffect w).symm.trans h)
    obtain ⟨xs, -, hv⟩ := Option.bind_eq_some_iff.mp hv
    cases q <;> simp_all [blackholes, compute?]

theorem Tail.Runs.of_blackholes (ht : t.blackholes = true) (h : t.Runs m room env u w e w') :
    e = .halted := by
  cases t with
  | prim q args =>
    obtain ⟨-, vs, -, hw⟩ := h
    exact Prim.effect_of_blackholes ht hw
  | ret | enter | call | data | closure | sel => cases ht

theorem Tail.Runs.of_hasNoEffect (ht : t.hasNoEffect = true) (h : t.Runs m room env u w e w') :
    u = .nothing ∧ w' = w ∧ ∃ vs, e = .returned vs := by
  cases t with
  | ret | data =>
    obtain ⟨rfl, vs, -, rfl, rfl⟩ := h
    exact ⟨rfl, rfl, _, rfl⟩
  | closure =>
    obtain ⟨rfl, vs, v, -, -, rfl, rfl⟩ := h
    exact ⟨rfl, rfl, _, rfl⟩
  | sel =>
    obtain ⟨rfl, c, fields, v, -, -, -, rfl, rfl⟩ := h
    exact ⟨rfl, rfl, _, rfl⟩
  | prim q args =>
    obtain ⟨rfl, vs, -, hw⟩ := h
    cases q.request vs with
    | load | ticks =>
      cases hw
      exact ⟨rfl, rfl, _, rfl⟩
    | store | print | halt | loop => cases ht
    | value _ heffect =>
      obtain ⟨v, -, rfl, rfl⟩ := Prim.computed_eq_some_iff.mp ((heffect w).symm.trans hw)
      exact ⟨rfl, rfl, _, rfl⟩
  | enter | call => cases ht

end Tails

variable {vars : List Temp}

theorem named_eq_nil (h : vars.all Temp.isWildcard = true) : named vars = [] := by
  simpa [named] using h

theorem named_eq_self (h : ∀ v ∈ vars, v.isWildcard = false) : named vars = vars := by
  simpa [named] using h

theorem Env.bind_wildcards (env : Env) (h : vars.all Temp.isWildcard = true) (vs : List Value) :
    env.bind vars vs = env := by
  induction vars generalizing vs with
  | nil => cases vs <;> rfl
  | cons x vars ih =>
    obtain ⟨hx, hvars⟩ : x.isWildcard = true ∧ vars.all Temp.isWildcard = true := by simpa using h
    cases vs with
    | nil => rfl
    | cons v vs => simpa [Env.bind, hx] using ih hvars vs

section Tidy

variable {std : Standard} {roles roles' : Roles} {pending : BlockId → Prop} {p : Program}
  {scope : List Temp}

namespace Faithful

theorem halted_of_tailNeverReturns (h : Faithful std roles pending p) (hle : roles.Le roles')
    {t : Tail} (ht : t.Legal roles.sig scope) (hn : p.tailNeverReturns t = .ok true) {room : Nat}
    {env : Env} {u : Use} {w w' : World} {e : Result}
    (hrun : t.Runs (std.meaning roles') room env u w e w') : e = .halted := by
  cases t with
  | call c =>
    simp only [Program.tailNeverReturns, Program.callNeverReturns, map_eq_ok_iff,
      Program.block_eq_ok_iff] at hn
    obtain ⟨block, hblock, hflag⟩ := hn
    obtain ⟨role, hrole⟩ := h.role ht.shaped
    obtain ⟨depth, -, vs, n, -, -, hj⟩ := hrun
    exact h.flags hrole hblock hflag hle hj
  | prim q args =>
    have hq : q.blackholes = true := by cases q <;> first | rfl | cases hn
    exact Tail.Runs.of_blackholes (t := .prim q args) hq hrun
  | ret | enter | data | closure | sel => cases hn

end Faithful

theorem Refines.done_of_halted {n : Nat} {vars : List Temp} {t : Tail} {rest : Code}
    (h : ∀ ⦃roles'⦄, roles.Le roles' → ∀ ⦃room env u w e w'⦄,
      t.Runs (std.meaning roles') room env u w e w' → e = .halted) :
    Refines std roles n scope (.bind vars t rest) (.done t) := by
  intro roles' hle depth cost rank env w e w' _ _ hrun
  obtain ⟨-, u, ⟨hu, rfl, ht⟩ | ⟨vs, w1, left, hl, ht, -⟩⟩ := hrun
  · exact ⟨u, hu.mono le_rfl (Nat.zero_le _), ht.deepen (std.meaning_deepens roles')⟩
  · cases h hle ht

theorem Refines.drop {n : Nat} {vars : List Temp} {t : Tail}
    (hvars : vars.all Temp.isWildcard = true) (ht : t.hasNoEffect = true) (rest : Code) :
    Refines std roles n scope (.bind vars t rest) rest := by
  intro roles' hle depth cost rank env w e w' _ _ hrun
  obtain ⟨-, u, ⟨-, -, hrun⟩ | ⟨vs, w1, left, hl, hrun, -, hrest⟩⟩ := hrun
  · obtain ⟨-, -, vs, hvs⟩ := hrun.of_hasNoEffect ht
    cases hvs
  · obtain ⟨rfl, rfl, -⟩ := hrun.of_hasNoEffect ht
    rw [env.bind_wildcards hvars] at hrest
    exact hrest.more (by simp only [Rules.free] at hl; omega)

theorem Code.returnsVars_iff {vars : List Temp} {code : Code} : code.returnsVars vars = true ↔
    code = .done (.ret (vars.map .temp)) ∧ ∀ v ∈ vars, v.isWildcard = false := by
  unfold Code.returnsVars
  split <;> simp_all [and_comm]

theorem Refines.rightUnit {n : Nat} {vars : List Temp} {t : Tail} (hvars : vars.Nodup)
    (hnamed : ∀ v ∈ vars, v.isWildcard = false) :
    Refines std roles n scope (.bind vars t (.done (.ret (vars.map .temp)))) (.done t) := by
  intro roles' hle depth cost rank env w e w' _ _ hrun
  obtain ⟨-, u, ⟨hu, rfl, ht⟩ | ⟨vs, w1, left, hl, ht, hlen, u', hu', rfl, vs', hvs', rfl, rfl⟩⟩ :=
    hrun
  · exact ⟨u, hu.mono le_rfl (Nat.zero_le _), ht.deepen (std.meaning_deepens roles')⟩
  · have hsame := Atom.hasAll_temps.mp hvs'
    rw [Env.map_lookup_bind hvars hnamed hlen.symm] at hsame
    obtain rfl := map_injective_iff.mpr (Option.some_injective _) hsame
    have hpos : 0 < left := hu'
    refine ⟨u, (Use.endsWithin_zero_iff.mpr ?_).mono le_rfl (Nat.zero_le _),
      ht.deepen (std.meaning_deepens roles')⟩
    simp only [Rules.free] at hl
    omega

theorem Code.agreed?_eq_some {calls : List Call} {c : Call} (h : Code.agreed? calls = some c) :
    c ∈ calls ∧ ∀ d ∈ calls, d = c := by
  unfold Code.agreed? at h
  split at h
  · cases h
  · rename_i d ds
    split at h
    · rename_i hall
      obtain rfl := Option.some.inj h
      refine ⟨.head .., fun x hx => ?_⟩
      obtain rfl | hx := mem_cons.mp hx
      · rfl
      · simpa using all_eq_true.mp hall x hx
    · cases h

theorem Faithful.tidy (h : Faithful std roles pending p) {code code' : Code} {reports : List String}
    (ht : code.tidy p = .ok (code', reports)) (hlegal : code.Legal roles.sig scope) :
    code'.Legal roles.sig scope ∧ Refines std roles roles.sig.temps scope code code' := by
  induction code generalizing scope code' reports with
  | done t =>
    obtain ⟨rfl, -⟩ := Prod.mk.inj (Except.ok.inj ht)
    exact ⟨hlegal, .refl ..⟩
  | bind vars t rest ih =>
    obtain ⟨htail, hvars, hrest⟩ := hlegal
    simp only [Code.tidy, bind_eq_ok_iff] at ht
    cases hhole : t.blackholes with
    | true =>
      simp only [hhole, Bool.true_or, if_true] at ht
      obtain ⟨rfl, -⟩ := Prod.mk.inj (Except.ok.inj ht.choose_spec.2)
      exact ⟨htail, .done_of_halted fun _ _ _ _ _ _ _ _ hrun => hrun.of_blackholes hhole⟩
    | false =>
      simp only [hhole, Bool.false_or] at ht
      obtain ⟨never, hnever, ht⟩ := ht
      cases never with
      | true =>
        obtain ⟨rfl, -⟩ := Prod.mk.inj (Except.ok.inj ht)
        exact ⟨htail, .done_of_halted fun _ hle _ _ _ _ _ _ hrun =>
          h.halted_of_tailNeverReturns hle htail hnever hrun⟩
      | false =>
        simp only [Bool.false_eq_true, if_false, bind_eq_ok_iff] at ht
        obtain ⟨⟨rest', reports'⟩, hrest', ht⟩ := ht
        obtain ⟨hlegal', hrefines⟩ := ih hrest' hrest
        have hstep := hrefines.bind hvars.allocated t
        split at ht
        · rename_i hdrop
          obtain ⟨hwild, heffect⟩ := Bool.and_eq_true_iff.mp hdrop
          obtain ⟨rfl, -⟩ := Prod.mk.inj (Except.ok.inj ht)
          rw [named_eq_nil hwild, append_nil] at hlegal'
          exact ⟨hlegal', hstep.trans (.drop hwild heffect rest')⟩
        · split at ht
          · rename_i hunit
            obtain ⟨rfl, hnamed⟩ := Code.returnsVars_iff.mp hunit
            obtain ⟨rfl, -⟩ := Prod.mk.inj (Except.ok.inj ht)
            have hnodup := named_eq_self hnamed ▸ hvars.nodup
            exact ⟨htail, hstep.trans (.rightUnit hnodup hnamed)⟩
          · obtain ⟨rfl, -⟩ := Prod.mk.inj (Except.ok.inj ht)
            exact ⟨⟨htail, hvars, hlegal'⟩, hstep⟩
  | assert a ctor rest ih =>
    simp only [Code.tidy, map_eq_ok_iff] at ht
    obtain ⟨⟨rest', reports'⟩, hrest', ht⟩ := ht
    obtain ⟨rfl, -⟩ := Prod.mk.inj ht
    obtain ⟨hlegal', hrefines⟩ := ih hrest' hlegal.2.2
    exact ⟨⟨hlegal.1, hlegal.2.1, hlegal'⟩, hrefines.assert a ctor⟩
  | branch test yes no =>
    simp only [Code.tidy, Except.ok.injEq] at ht
    split at ht
    · rename_i hsame
      subst hsame
      obtain ⟨rfl, -⟩ := Prod.mk.inj ht
      refine ⟨hlegal.2.1, fun roles' _ depth cost rank env w e w' _ _ hrun => ?_⟩
      obtain ⟨b, u, -, hu, hc⟩ := hrun
      exact ⟨u, hu, depth, rfl, by cases b <;> exact hc⟩
    · obtain ⟨rfl, -⟩ := Prod.mk.inj ht
      exact ⟨hlegal, .refl ..⟩
  | switch a alts =>
    simp only [Code.tidy, Except.ok.injEq] at ht
    split at ht
    · rename_i c hc
      obtain ⟨hmem, hall⟩ := Code.agreed?_eq_some hc
      obtain ⟨rfl, -⟩ := Prod.mk.inj ht
      refine ⟨hlegal.2.1 c hmem, fun roles' _ depth cost rank env w e w' _ _ hrun => ?_⟩
      obtain ⟨ctor, fields, taken, u, -, hsel, -, hu, hrun⟩ := hrun
      obtain rfl := hall taken (Alts.mem_calls_of_select hsel)
      exact ⟨u, hu, depth, rfl, hrun⟩
    · obtain ⟨rfl, -⟩ := Prod.mk.inj ht
      exact ⟨hlegal, .refl ..⟩

end Tidy

namespace Program

variable {p : Program}

/-- Are the data types as declarations make them? -/
def RegularTypes (p : Program) : Prop :=
  ∀ (i : Nat) dt, p.datatypes[i]? = some dt → ∃ name ctors, dt = DataType.declare i name ctors

/-- Is it a declared constructor of the type that these belong to? -/
structure FitsArms (p : Program) (ctors : List Ctor) (c : Ctor) : Prop where
  declared : p.Declares c
  ty : ∀ d ∈ ctors, c.ty = d.ty

theorem RegularTypes.ctor (h : p.RegularTypes) {i j : Nat} {dt : DataType} {c : Ctor}
    (hdt : p.datatypes[i]? = some dt) (hc : dt.ctors[j]? = some c) :
    c.ty = i ∧ c.tag = j ∧ c.family = dt.ctors.length := by
  obtain ⟨name, ctors, rfl⟩ := h i dt hdt
  simp only [DataType.declare, getElem?_mapIdx, Option.map_eq_some_iff] at hc
  obtain ⟨_, -, rfl⟩ := hc
  simp [DataType.declare]

theorem RegularTypes.tag_lt (h : p.RegularTypes) {c d : Ctor} (hc : p.Declares c)
    (hd : p.Declares d) (hty : c.ty = d.ty) : c.tag < d.family := by
  obtain ⟨dt, hdt, hc⟩ := hc
  obtain ⟨_, hdt', hd⟩ := hd
  rw [← hty] at hdt'
  obtain rfl := Option.mem_unique hdt hdt'
  rw [(h.ctor hdt hd).2.2]
  exact (List.getElem?_eq_some_iff.mp hc).1

theorem RegularTypes.declares_sibling (h : p.RegularTypes) {c d : Ctor} {siblings : List Ctor}
    (hs : p.siblings c = .ok siblings) (hd : d ∈ siblings) : p.Declares d ∧ d.ty = c.ty := by
  unfold Program.siblings at hs
  split at hs
  · split at hs
    · rename_i dt hdt
      split at hs
      · obtain rfl := Except.ok.inj hs
        obtain ⟨j, hj⟩ := mem_iff_getElem?.mp hd
        obtain ⟨hty, htag, -⟩ := h.ctor hdt hj
        exact ⟨⟨dt, hty ▸ hdt, htag ▸ hj⟩, hty⟩
      · cases hs
    · cases hs
  · cases hs

end Program

theorem eq_of_not_mem_of_length {n x y : Nat} {tags : List Nat} (hnodup : tags.Nodup)
    (hlt : ∀ t ∈ tags, t < n) (hlen : tags.length + 1 = n) (hx : x < n) (hy : y < n)
    (hxs : x ∉ tags) (hys : y ∉ tags) : x = y := by
  by_contra hne
  have hall : (x :: y :: tags).Nodup := by simp [hxs, hys, hnodup, hne]
  have hsub : x :: y :: tags ⊆ range n := by
    intro t ht
    simp only [mem_cons] at ht
    obtain rfl | rfl | ht := ht
    · simpa
    · simpa
    · simpa using hlt t ht
  have := (hall.subperm hsub).length_le
  simp only [length_cons, length_range] at this
  omega

namespace Alts

variable {p : Program} {alts alts' : Alts} {c : Ctor} {reports : List String}

theorem select_of_arm {arms : List Arm} {arm : Arm}
    (h : arms.find? (fun arm => arm.ctor.same c) = some arm) (default : Option Call) :
    select ⟨arms, default⟩ c = some arm.call := by
  simp [select, h]

theorem mem_of_covers {n : Nat} (h : alts.covers n = true) (hc : c.tag < n)
    (hty : ∀ d ∈ alts.arms.map Arm.ctor, c.ty = d.ty) :
    ∃ arm, alts.arms.find? (fun arm => arm.ctor.same c) = some arm := by
  have := all_eq_true.mp h c.tag (mem_range.mpr hc)
  obtain ⟨arm, harm, htag⟩ := any_eq_true.mp this
  refine Option.isSome_iff_exists.mp (List.find?_isSome.mpr ⟨arm, harm, ?_⟩)
  exact Ctor.same_iff.mpr ⟨(hty _ (mem_map_of_mem harm)).symm, by simpa using htag⟩

theorem same_of_missing (hregular : p.RegularTypes) {first : Arm} {rest : List Arm}
    (harms : ∀ arm ∈ first :: rest, p.Declares arm.ctor)
    (hdistinct : (first :: rest).Pairwise fun x y => x.ctor.same y.ctor = false)
    (hlen : (first :: rest).length + 1 = first.ctor.family)
    (hfits : p.FitsArms ((first :: rest).map Arm.ctor) c)
    (hc : ∀ arm ∈ first :: rest, arm.ctor.same c = false) {d : Ctor} (hd : p.Declares d)
    (hdty : d.ty = first.ctor.ty) (hmissing : ∀ arm ∈ first :: rest, arm.ctor.same d = false) :
    d.same c = true := by
  have hty (arm : Arm) (harm : arm ∈ first :: rest) : c.ty = arm.ctor.ty :=
    hfits.ty _ (List.mem_map_of_mem harm)
  have hfirst := List.mem_cons_self (a := first) (l := rest)
  have hlt {x : Ctor} (hx : p.Declares x) (hxty : x.ty = first.ctor.ty) :
    x.tag < first.ctor.family :=
    hregular.tag_lt hx (harms first hfirst) hxty
  have hnot {x : Ctor} (hx : x.ty = c.ty) (hxs : ∀ arm ∈ first :: rest, arm.ctor.same x = false) :
      x.tag ∉ (first :: rest).map (·.ctor.tag) := by
    intro hmem
    obtain ⟨arm, harm, htag⟩ := List.mem_map.mp hmem
    have hsame : arm.ctor.same x = true := Ctor.same_iff.mpr ⟨(hx.trans (hty arm harm)).symm, htag⟩
    rw [hxs arm harm] at hsame
    cases hsame
  have htags : ((first :: rest).map (·.ctor.tag)).Nodup := by
    refine List.pairwise_map.mpr (hdistinct.imp_of_mem fun {x y} hx hy hxy htag => ?_)
    have hsame : x.ctor.same y.ctor = true :=
      Ctor.same_iff.mpr ⟨(hty x hx).symm.trans (hty y hy), htag⟩
    rw [hxy] at hsame
    cases hsame
  refine Ctor.same_iff.mpr ⟨hdty.trans (hty first hfirst).symm, ?_⟩
  refine eq_of_not_mem_of_length htags (fun t ht => ?_) (by simpa using hlen)
    (hlt hd hdty) (hlt hfits.declared (hty first hfirst))
    (hnot (hdty.trans (hty first hfirst).symm) hmissing) (hnot rfl hc)
  obtain ⟨arm, harm, rfl⟩ := List.mem_map.mp ht
  exact hlt (harms arm harm) ((hty arm harm).symm.trans (hty first hfirst))

/-- The call of the default is taken by an arm for the constructor that is missing. -/
theorem select_append (hregular : p.RegularTypes) {first : Arm} {rest : List Arm}
    {call taken : Call} (harms : ∀ arm ∈ first :: rest, p.Declares arm.ctor)
    (hdistinct : (first :: rest).Pairwise fun x y => x.ctor.same y.ctor = false)
    (hlen : (first :: rest).length + 1 = first.ctor.family)
    (hfits : p.FitsArms ((first :: rest).map Arm.ctor) c) {d : Ctor} (hd : p.Declares d)
    (hdty : d.ty = first.ctor.ty) (hmissing : ∀ arm ∈ first :: rest, arm.ctor.same d = false)
    (hsel : select ⟨first :: rest, some call⟩ c = some taken) :
    select ⟨first :: rest ++ [⟨d, call⟩], none⟩ c = some taken := by
  cases harm : (first :: rest).find? fun arm => arm.ctor.same c with
  | some arm =>
    simp only [select, harm] at hsel
    simp only [select, List.find?_append, harm, Option.some_or]
    exact hsel
  | none =>
    have hc : ∀ arm ∈ first :: rest, arm.ctor.same c = false := by
      simpa using List.find?_eq_none.mp harm
    have hdc := same_of_missing hregular harms hdistinct hlen hfits hc hd hdty hmissing
    simp only [select, harm] at hsel
    simp only [select, List.find?_append, harm, Option.none_or, List.find?_cons, hdc]
    exact hsel

theorem tighten_spec (hregular : p.RegularTypes) (h : alts.tighten p = .ok (alts', reports))
    {σ : Signature} (hσ : ∀ c, σ.ctor c ↔ p.Declares c) (hlegal : alts.Legal σ) :
    alts'.Legal σ ∧ (∀ call ∈ alts'.calls, call ∈ alts.calls) ∧
      ∀ c taken, p.FitsArms (alts.arms.map Arm.ctor) c → alts.select c = some taken →
        alts'.select c = some taken ∧ p.FitsArms (alts'.arms.map Arm.ctor) c := by
  have hsame : alts.Legal σ ∧ (∀ call ∈ alts.calls, call ∈ alts.calls) ∧
      ∀ c taken, p.FitsArms (alts.arms.map Arm.ctor) c → alts.select c = some taken →
        alts.select c = some taken ∧ p.FitsArms (alts.arms.map Arm.ctor) c :=
    ⟨hlegal, fun _ => id, fun _ _ hfits hsel => ⟨hsel, hfits⟩⟩
  have hkeep (h : (Except.ok (alts, []) : Except Fault (Alts × List String)) =
    .ok (alts', reports)) :
      alts' = alts := (Prod.mk.inj (Except.ok.inj h)).1.symm
  obtain ⟨_ | ⟨first, rest⟩, _ | call⟩ := alts
  · exact hkeep h ▸ hsame
  · exact hkeep h ▸ hsame
  · exact hkeep h ▸ hsame
  have hdecl (arm : Arm) (harm : arm ∈ first :: rest) : p.Declares arm.ctor :=
    (hσ _).mp (hlegal.ctors arm harm)
  simp only [tighten] at h
  split at h
  · rename_i hcovers
    obtain ⟨rfl, -⟩ := Prod.mk.inj (Except.ok.inj h)
    refine ⟨⟨hlegal.ctors, hlegal.distinct⟩, fun c hc => ?_, fun c taken hfits hsel => ?_⟩
    · simp only [calls, Option.toList_none, append_nil] at hc
      exact mem_append_left _ hc
    · have hlt := hregular.tag_lt hfits.declared (hdecl first (.head ..))
        (hfits.ty _ (by simp))
      obtain ⟨arm, harm⟩ := mem_of_covers hcovers hlt hfits.ty
      rw [select_of_arm harm] at hsel
      exact ⟨(select_of_arm harm none).trans hsel, hfits⟩
  · split at h
    · rename_i hlen
      obtain ⟨siblings, hsiblings, h⟩ := bind_eq_ok_iff.mp h
      split at h
      · rename_i d hd
        obtain ⟨rfl, -⟩ := Prod.mk.inj (Except.ok.inj h)
        obtain ⟨hdecl', hdty⟩ :=
          hregular.declares_sibling hsiblings (mem_of_find?_eq_some hd)
        have hmissing : ∀ arm ∈ first :: rest, arm.ctor.same d = false := by
          simpa using List.find?_some hd
        refine ⟨⟨fun arm harm => ?_, ?_⟩, fun c hc => ?_, fun c taken hfits hsel => ⟨?_, ?_⟩⟩
        · obtain harm | harm := mem_append.mp harm
          · exact hlegal.ctors arm harm
          · obtain rfl := mem_singleton.mp harm
            exact (hσ d).mpr hdecl'
        · refine pairwise_append.mpr ⟨hlegal.distinct, pairwise_singleton .., ?_⟩
          intro arm harm _ hx
          obtain rfl := mem_singleton.mp hx
          exact hmissing arm harm
        · simpa [calls] using hc
        · exact select_append hregular hdecl hlegal.distinct hlen hfits hdecl' hdty hmissing hsel
        · refine ⟨hfits.declared, fun x hx => ?_⟩
          rw [map_append, mem_append] at hx
          obtain hx | hx := hx
          · exact hfits.ty x hx
          · obtain rfl : x = d := by simpa using hx
            exact (hfits.ty _ (by simp)).trans hdty.symm
      · exact hkeep h ▸ hsame
    · exact hkeep h ▸ hsame

theorem only?_eq_some {call taken : Call} (h : alts.only? = some call)
    (hsel : alts.select c = some taken) : taken = call := by
  have hmem := mem_calls_of_select hsel
  obtain ⟨_ | ⟨first, _ | ⟨second, rest⟩⟩, _ | default⟩ := alts
  · cases h
  · obtain rfl : default = call := Option.some.inj h
    simpa [calls] using hmem
  · simp only [only?] at h
    split at h
    · obtain rfl := Option.some.inj h
      simpa [calls] using hmem
    · cases h
  all_goals cases h

theorem mem_calls_of_only? {call : Call} (h : alts.only? = some call) : call ∈ alts.calls := by
  obtain ⟨arms, default⟩ := alts
  unfold only? at h
  split at h
  · simp_all [calls]
  · split at h <;> simp_all [calls]
  · cases h

end Alts

section Simplify

variable {std : Standard} {roles : Roles} {pending : BlockId → Prop} {p : Program}
  {scope : List Temp}

theorem Faithful.simplifyCases (h : Faithful std roles pending p) (hregular : p.RegularTypes)
    (hfits : ∀ ctors c, std.fits ctors c ↔ p.FitsArms ctors c) {code code' : Code}
    {reports : List String} (hs : code.simplifyCases p = .ok (code', reports))
    (hlegal : code.Legal roles.sig scope) :
    code'.Legal roles.sig scope ∧ Refines std roles roles.sig.temps scope code code' := by
  induction code generalizing scope code' reports with
  | done | branch =>
    obtain ⟨rfl, -⟩ := Prod.mk.inj (Except.ok.inj hs)
    exact ⟨hlegal, .refl ..⟩
  | bind vars t rest ih =>
    simp only [Code.simplifyCases, map_eq_ok_iff] at hs
    obtain ⟨⟨rest', reports'⟩, hrest', hs⟩ := hs
    obtain ⟨rfl, -⟩ := Prod.mk.inj hs
    obtain ⟨htail, hvars, hrest⟩ := hlegal
    obtain ⟨hlegal', hrefines⟩ := ih hrest' hrest
    exact ⟨⟨htail, hvars, hlegal'⟩, hrefines.bind hvars.allocated t⟩
  | assert a ctor rest ih =>
    simp only [Code.simplifyCases, map_eq_ok_iff] at hs
    obtain ⟨⟨rest', reports'⟩, hrest', hs⟩ := hs
    obtain ⟨rfl, -⟩ := Prod.mk.inj hs
    obtain ⟨hlegal', hrefines⟩ := ih hrest' hlegal.2.2
    exact ⟨⟨hlegal.1, hlegal.2.1, hlegal'⟩, hrefines.assert a ctor⟩
  | switch a alts =>
    simp only [Code.simplifyCases, bind_eq_ok_iff] at hs
    obtain ⟨⟨alts', reports'⟩, htighten, hs⟩ := hs
    obtain ⟨hlegal', hcalls, hselect⟩ := Alts.tighten_spec hregular htighten h.ctor hlegal.2.2
    split at hs
    · rename_i call honly
      obtain ⟨rfl, -⟩ := Prod.mk.inj (Except.ok.inj hs)
      refine ⟨hlegal.2.1 call (hcalls call (Alts.mem_calls_of_only? honly)), ?_⟩
      intro roles' _ depth cost rank env w e w' _ _ hrun
      obtain ⟨c, fields, taken, u, ha, hsel, hf, hu, hc⟩ := hrun
      obtain ⟨hsel', -⟩ := hselect c taken ((hfits _ _).mp hf) hsel
      obtain rfl := Alts.only?_eq_some honly hsel'
      exact ⟨u, hu, depth, rfl, hc⟩
    · obtain ⟨rfl, -⟩ := Prod.mk.inj (Except.ok.inj hs)
      refine ⟨⟨hlegal.1, fun c hc => hlegal.2.1 c (hcalls c hc), hlegal'⟩, ?_⟩
      intro roles' _ depth cost rank env w e w' _ _ hrun
      obtain ⟨c, fields, taken, u, ha, hsel, hf, hu, hc⟩ := hrun
      obtain ⟨hsel', hf'⟩ := hselect c taken ((hfits _ _).mp hf) hsel
      exact ⟨c, fields, taken, u, ha, hsel', (hfits _ _).mpr hf', hu, hc⟩

end Simplify

/-- No run of the block is below this cost and rank. -/
def Meaning.CostsAtLeast (m : Meaning) (b : BlockId) (x : ℕ ×ₗ ℕ) : Prop :=
  ∀ ⦃depth cost args w e w'⦄, m.jump depth cost b args w e w' → x ≤ toLex (cost, m.rank b)

theorem Meaning.CostsAtLeast.mono {m : Meaning} {b : BlockId} {x y : ℕ ×ₗ ℕ}
    (h : m.CostsAtLeast b x) (hyx : y ≤ x) : m.CostsAtLeast b y :=
  fun _ _ _ _ _ _ hj => hyx.trans (h hj)

theorem Code.Runs.of_idles {m : Meaning} {fits : List Ctor → Ctor → Prop} {σ : Signature}
    {enters : BlockId → Except Fault Bool} {code : Code} {scope : List Temp} {depth cost rank : Nat}
    {env : Env} {w w' : World} {e : Result}
    (hrun : code.Runs m (.free fits) depth cost rank env w e w')
    (h : code.idles enters = .ok true) (hlegal : code.Legal σ scope) :
    ∃ b n, enters b = .ok true ∧ σ.block b = some n ∧ ¬m.CostsAtLeast b (toLex (cost, rank)) := by
  induction code generalizing scope cost rank env w with
  | done t =>
    obtain ⟨u, hu, ht⟩ := hrun
    cases t with
    | call c =>
      obtain ⟨_, -, vs, n, -, rfl, hj⟩ := ht
      refine ⟨c.target, _, h, hlegal.shaped, fun hleast => ?_⟩
      have := hleast hj
      simp only [Prod.Lex.toLex_le_toLex] at this
      simp only [Use.EndsWithin] at hu
      omega
    | ret | enter | data | closure | sel | prim => cases h
  | bind vars t rest ih =>
    obtain ⟨htail, hvars, hrest⟩ := hlegal
    cases hcall : t.call? with
    | some c =>
      obtain rfl : t = .call c := by cases t <;> simp_all [Tail.call?]
      have hlt : ∃ depth' n vs e1 w1, m.jump depth' n c.target vs w e1 w1 ∧ n < cost := by
        obtain ⟨-, u, ⟨hu, -, _, -, vs, n, -, rfl, hj⟩ |
          ⟨_, w1, left, hl, ⟨_, -, vs, n, -, rfl, hj⟩, -, hrest⟩⟩ := hrun
        · exact ⟨_, n, vs, _, _, hj, Use.endsWithin_zero_iff.mp hu⟩
        · have hpos := Code.Runs.cost_pos hrest
          simp only [Rules.free, Use.cost] at hl
          exact ⟨_, n, vs, _, _, hj, by omega⟩
      obtain ⟨_, n, vs, _, _, hj, hlt⟩ := hlt
      refine ⟨c.target, _, h, htail.shaped, fun hleast => ?_⟩
      have := hleast hj
      simp only [Prod.Lex.toLex_le_toLex] at this
      omega
    | none =>
      have h' : (if t.hasNoEffect then rest.idles enters else .ok false) = .ok true := by
        cases t <;> first | exact h | cases hcall
      split at h'
      · rename_i heffect
        obtain ⟨-, u, ⟨-, -, ht⟩ | ⟨vs, w1, left, hl, ht, -, hrun⟩⟩ := hrun
        · obtain ⟨-, -, _, hvs⟩ := ht.of_hasNoEffect heffect
          cases hvs
        · obtain ⟨b, n, hb, hn, hleast⟩ := ih hrun h' hrest
          refine ⟨b, n, hb, hn, fun hl' => hleast (hl'.mono ?_)⟩
          have : u.rankAfter rank ≤ rank := by cases u <;> simp [Use.rankAfter]
          simp only [Rules.free] at hl
          simp only [Prod.Lex.toLex_le_toLex]
          omega
      · cases h'
  | assert a ctor rest ih =>
    obtain ⟨c, fields, left, -, -, hl, hrun⟩ := hrun
    obtain ⟨b, n, hb, hn, hleast⟩ := ih hrun h hlegal.2.2
    refine ⟨b, n, hb, hn, fun hl' => hleast (hl'.mono ?_)⟩
    simp only [Rules.free] at hl
    simp only [Prod.Lex.toLex_le_toLex]
    omega
  | branch | switch => cases h

section Loops

variable {std : Standard} {roles roles' : Roles} {p : Program} {src : BlockId}

namespace Faithful

theorem costsAtLeast_of_blockIdles (h : Faithful std roles (fun _ => False) p)
    (hle : roles.Le roles')
    (x : ℕ ×ₗ ℕ) {fuel : Nat} {visited : List BlockId} {b : BlockId} {n : Nat}
    (hb : roles.sig.block b = some n) (hidle : p.blockIdles src fuel visited b = .ok true)
    (hvisited : ∀ v ∈ visited, (std.meaning roles').CostsAtLeast v x) :
    (std.meaning roles').CostsAtLeast b x := by
  induction x using WellFoundedLT.induction generalizing fuel visited b n with
  | ind x ihx =>
    cases fuel with
    | zero => cases hidle
    | succ fuel =>
      have hidle' := hidle
      unfold Program.blockIdles at hidle'
      split at hidle'
      · rename_i hmem
        exact hvisited b (by simpa using hmem)
      · obtain ⟨other, hother, hidle'⟩ := bind_eq_ok_iff.mp hidle'
        cases other with
        | true => cases hidle'
        | false =>
          simp only [Bool.false_eq_true, if_false, bind_eq_ok_iff,
            Program.block_eq_ok_iff] at hidle'
          obtain ⟨block, hblock, hidles⟩ := hidle'
          obtain ⟨role, hrole⟩ := h.role hb
          obtain ⟨_, hblock', -, -, hful⟩ := h.block hrole
          obtain rfl := Option.mem_unique hblock hblock'
          intro depth cost args w e w' hj
          by_contra hlt
          have hlt := not_le.mp hlt
          obtain ⟨-, hrun⟩ := (hful id).meets hle hj
          obtain ⟨c, k, hc, hk, hleast⟩ := hrun.of_idles hidles (hful id).legal
          -- the next block has been visited, or is cheaper than what is spent here
          refine hleast (ihx _ hlt hk hc fun v hv => ?_)
          obtain rfl | hv := mem_cons.mp hv
          · exact ihx _ hlt hb hidle fun v hv => (hvisited v hv).mono hlt.le
          · exact (hvisited v hv).mono hlt.le

theorem not_runs_of_loopsForever (h : Faithful std roles (fun _ => False) p) {role : BlockRole}
    (hsrc : roles.block src = some role) {block : Block}
    (hblock : p.blocks[src.index]? = some block)
    {code : Code} (hlegal : code.Legal roles.sig (named block.params))
    (hrefines : Refines std roles roles.sig.temps (named block.params) block.code code)
    (hloops : p.loopsForever src code = .ok true) (hle : roles.Le roles') {depth cost rank : Nat}
    {env : Env} {w w' : World} {e : Result} :
    ¬std.Runs roles' depth cost rank code env w e w' := by
  obtain ⟨recursive, -, hloops⟩ := bind_eq_ok_iff.mp hloops
  cases recursive with
  | false => cases hloops
  | true =>
    simp only [if_true] at hloops
    obtain ⟨_, hblock', hlen, hparams, hful⟩ := h.block hsrc
    obtain rfl := Option.mem_unique hblock hblock'
    have hleast (x : ℕ ×ₗ ℕ) : (std.meaning roles').CostsAtLeast src x := by
      induction x using WellFoundedLT.induction with
      | ind x ihx =>
        intro depth cost args w e w' hj
        by_contra hlt
        have hlt := not_le.mp hlt
        obtain ⟨hargs, hrun⟩ := (hful id).meets hle hj
        have hrun := hrefines hle (.entry hparams args) (.entry hargs) hrun
        obtain ⟨c, k, hc, hk, hleast⟩ := hrun.of_idles hloops hlegal
        refine hleast (h.costsAtLeast_of_blockIdles hle _ hk hc fun v hv => ?_)
        rw [mem_singleton.mp hv]
        exact ihx _ hlt
    intro hrun
    obtain ⟨c, k, hc, hk, hnot⟩ := hrun.of_idles hloops hlegal
    refine hnot (h.costsAtLeast_of_blockIdles hle _ hk hc fun v hv => ?_)
    rw [mem_singleton.mp hv]
    exact hleast _

end Faithful

end Loops

end MonadicIR
