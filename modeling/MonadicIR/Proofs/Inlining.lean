import MonadicIR.Proofs.Pushing

namespace MonadicIR

open Program

namespace Improves

variable {std : Standard} {roles roles1 roles2 : Roles} {p p1 p2 : Program} {scope : List Temp}
  {code code1 code2 : Code}

theorem refl (h : Faithful std roles (fun _ => False) p) (hlegal : code.Legal roles.sig scope) :
    Improves std roles p scope code roles p code :=
  ⟨h.stay, hlegal, .refl ..⟩

theorem trans (h : Improves std roles p scope code roles1 p1 code1)
    (h' : Improves std roles1 p1 scope code1 roles2 p2 code2) :
    Improves std roles p scope code roles2 p2 code2 :=
  ⟨h.progress.trans h'.progress, h'.legal, (h.refines.mono h'.progress.le le_rfl).trans
    (h'.refines.mono (.refl _) h.progress.le.sig.temps)⟩

end Improves

namespace Pass

variable {o : Options} {src : BlockId} {s s' : Workbench} {vars : List Temp} {c c' : Call}
  {rest code code' : Code}

section Bypass

theorem bypassGoto_eq_ok {r : Option Call} (h : bypassGoto c s = .ok r s') :
    s'.program = s.program ∧ ∃ d, s.program.bypass c = .ok d ∧ r.getD c = d ∧ ∀ x ∈ r, x = d := by
  simp only [bypassGoto, bind_ok_iff, look_eq_ok_iff] at h
  obtain ⟨d, _, ⟨hd, rfl⟩, h⟩ := h
  split at h
  · rename_i hdc
    simp only [pure_ok_iff] at h
    obtain ⟨rfl, rfl⟩ := h
    exact ⟨rfl, d, hd, hdc.symm, by simp⟩
  · simp only [bind_ok_iff, report_eq_ok_iff, pure_ok_iff, exists_unit] at h
    obtain ⟨_, rfl, rfl, rfl⟩ := h
    exact ⟨rfl, d, hd, rfl, by simp⟩

variable {std : Standard} {roles : Roles} {scope : List Temp}

variable (h : Faithful std roles (fun _ => False) s.program)

include h

theorem bypassed_spec (hc : c.Legal roles.sig scope) (hb : bypassed c s = .ok c' s') :
    s'.program = s.program ∧ c'.Legal roles.sig scope ∧ c.Refines std roles c' := by
  simp only [bypassed, bind_ok_iff, pure_ok_iff] at hb
  obtain ⟨r, _, hr, rfl, rfl⟩ := hb
  obtain ⟨hs, d, hd, rfl, -⟩ := bypassGoto_eq_ok hr
  exact ⟨hs, h.followGotos hc hd⟩

theorem bypassArms_spec {arms arms' : List Arm} (hc : ∀ arm ∈ arms, arm.call.Legal roles.sig scope)
    (hb : bypassArms arms s = .ok arms' s') :
    s'.program = s.program ∧ List.Forall₂ (fun x y => y.ctor = x.ctor ∧
      y.call.Legal roles.sig scope ∧ x.call.Refines std roles y.call) arms arms' := by
  induction arms generalizing s arms' with
  | nil =>
    simp only [bypassArms, pure_ok_iff] at hb
    obtain ⟨rfl, rfl⟩ := hb
    exact ⟨rfl, .nil⟩
  | cons arm arms ih =>
    simp only [bypassArms, bind_ok_iff, pure_ok_iff] at hb
    obtain ⟨c', s1, hc', arms', _, harms, rfl, rfl⟩ := hb
    obtain ⟨hs1, hstep⟩ := bypassed_spec h (hc arm (.head ..)) hc'
    obtain ⟨hs, hall⟩ := ih (hs1 ▸ h) (fun x hx => hc x (.tail _ hx)) harms
    exact ⟨hs.trans hs1, .cons ⟨rfl, hstep⟩ hall⟩

theorem bypassDefault_spec {default default' : Option Call}
    (hc : ∀ c ∈ default, c.Legal roles.sig scope) (hb : bypassDefault default s = .ok default' s') :
    s'.program = s.program ∧
      Option.Rel (fun c c' => c'.Legal roles.sig scope ∧ c.Refines std roles c') default
        default' := by
  cases default with
  | none =>
    simp only [bypassDefault, pure_ok_iff] at hb
    obtain ⟨rfl, rfl⟩ := hb
    exact ⟨rfl, .none⟩
  | some c =>
    simp only [bypassDefault, bind_ok_iff, pure_ok_iff] at hb
    obtain ⟨c', _, hc', rfl, rfl⟩ := hb
    obtain ⟨hs, hstep⟩ := bypassed_spec h (hc c rfl) hc'
    exact ⟨hs, .some hstep⟩

end Bypass

section Bodies

theorem instantiate_eq_ok (h : instantiate c s = .ok code s') :
    ∃ block, s.program.blocks[c.target.index]? = some block ∧
      code = (block.code.copyFresh s.program.temps (({} : Subst).extendAll block.params c.args)).1 ∧
      s' = { s with program := { s.program with
        temps := (block.code.copyFresh s.program.temps
          (({} : Subst).extendAll block.params c.args)).2.1 } } := by
  simp only [instantiate, bind_ok_iff, look_eq_ok_iff, block_eq_ok_iff,
    edit_eq_ok_iff, pure_ok_iff] at h
  obtain ⟨block, _, ⟨hblock, rfl⟩, subst, _, ⟨hsubst, rfl⟩, ⟨copy, renamed⟩, _, ⟨p, hcopy, rfl⟩,
    rfl, rfl⟩ := h
  obtain ⟨-, rfl⟩ := Subst.bind_eq_ok hsubst
  obtain ⟨rfl, rfl⟩ := Edit.copyFresh_ok hcopy
  exact ⟨block, hblock, rfl, rfl⟩

theorem inlinePrefix_eq_ok {r : Option Code} (h : inlinePrefix o src vars c rest s = .ok r s') :
    r = none ∧ s' = s ∨ ∃ body s1 code, instantiate c s = .ok body s1 ∧
      body.andThen vars rest = .ok code ∧ r = some code ∧ s'.program = s1.program := by
  simp only [inlinePrefix, bind_ok_iff, look_eq_ok_iff] at h
  obtain ⟨other, _, ⟨-, rfl⟩, h⟩ := h
  cases other with
  | false =>
    simp only [Bool.false_eq_true, if_false, pure_ok_iff] at h
    exact .inl h
  | true =>
    simp only [if_true, bind_ok_iff, look_eq_ok_iff] at h
    obtain ⟨block, _, ⟨-, rfl⟩, h⟩ := h
    cases hn : block.code.prefixLength? with
    | none =>
      simp only [hn, pure_ok_iff] at h
      exact .inl h
    | some n =>
      simp only [hn] at h
      split at h
      · exact .inl (pure_ok_iff.mp h)
      · simp only [bind_ok_iff, look_eq_ok_iff, report_eq_ok_iff, pure_ok_iff,
          exists_unit] at h
        obtain ⟨body, s1, hbody, code, _, ⟨hcode, rfl⟩, _, rfl, rfl, rfl⟩ := h
        exact .inr ⟨body, _, code, hbody, hcode, rfl, rfl⟩

theorem looks_suffixFits (o : Options) (src b : BlockId) : Looks (suffixFits o src b) := by
  refine .bind (.look _) fun block => ?_
  have hend (endless : Bool) : Looks (do
      if endless then return false
      if block.notes.occurs = 1 ∨ block.code.isDone then return true
      if ← look (·.guarded src b) then return block.code.suffixLength ≤ o.inlineLines
      return false) :=
    .ite (.pure _) (.ite (.pure _) (.bind (.look _) fun _ => .ite (.pure _) (.pure _)))
  exact .ite (.bind (.look _) hend) (.bind (.pure _) hend)

theorem inlineSuffix_eq_ok {r : Option Code} (h : inlineSuffix o src c s = .ok r s') :
    r = none ∧ s' = s ∨ ∃ code s1, instantiate c s = .ok code s1 ∧ r = some code ∧
      s'.program = s1.program := by
  simp only [inlineSuffix, bind_ok_iff] at h
  obtain ⟨fits, s0, hfits, h⟩ := h
  obtain rfl := looks_suffixFits _ _ _ hfits
  split at h
  · simp only [bind_ok_iff, report_eq_ok_iff, pure_ok_iff, exists_unit] at h
    obtain ⟨code, s1, hcode, _, rfl, rfl, rfl⟩ := h
    exact .inr ⟨code, s1, hcode, rfl, rfl⟩
  · exact .inl (pure_ok_iff.mp h)

theorem pushEnter_none (h : pushEnter o src vars c rest s = .ok none s') : s' = s := by
  unfold pushEnter at h
  split at h
  · rename_i f
    cases hentered : entered? f rest with
    | none => exact (pure_ok_iff.mp (by simpa only [hentered] using h)).2
    | some args =>
      simp only [hentered, bind_ok_iff, look_eq_ok_iff] at h
      obtain ⟨block, _, ⟨-, rfl⟩, h⟩ := h
      split at h
      · simp only [bind_ok_iff, pure_ok_iff] at h
        obtain ⟨_, _, -, _, _, -, ⟨⟩, -⟩ := h
      · exact (pure_ok_iff.mp h).2
  · exact (pure_ok_iff.mp h).2

theorem pushCase_none (h : pushCase o src vars c rest s = .ok none s') : s' = s := by
  unfold pushCase at h
  split at h
  · split at h
    · simp only [bind_ok_iff] at h
      obtain ⟨candidate, s0, hcandidate, h⟩ := h
      obtain rfl := looks_continuationCandidate _ _ hcandidate
      cases candidate with
      | false => exact (pure_ok_iff.mp h).2
      | true =>
        simp only [if_true, bind_ok_iff, pure_ok_iff] at h
        obtain ⟨_, _, -, _, _, -, _, _, -, _, _, -, ⟨⟩, -⟩ := h
    · exact (pure_ok_iff.mp h).2
  · exact (pure_ok_iff.mp h).2

end Bodies

def Improver (std : Standard) (f : Code → Nat → Pass Code) : Prop :=
  ∀ ⦃roles s scope code limit code' s'⦄, Faithful std roles (fun _ => False) s.program →
    roles.sig.Scopes scope → code.Legal roles.sig scope → f code limit s = .ok code' s' →
      ∃ roles', Improves std roles s.program scope code roles' s'.program code'

section Traversal

variable {std : Standard} {roles : Roles} {scope : List Temp}

theorem inlineSuffix_spec (h : Faithful std roles (fun _ => False) s.program)
    (hscope : roles.sig.Scopes scope) (hc : c.Legal roles.sig scope)
    (hi : inlineSuffix o src c s = .ok (some code) s') :
    ∃ roles', Improves std roles s.program scope (.jump c) roles' s'.program code := by
  obtain ⟨hr, -⟩ | ⟨_, s1, hinst, hr, hs'⟩ := inlineSuffix_eq_ok hi
  · cases hr
  · obtain rfl := Option.some.inj hr
    obtain ⟨block, hblock, rfl, rfl⟩ := instantiate_eq_ok hinst
    rw [hs']
    have hp := h.withTemps (block.code.size_copyFresh s.program.temps
      (({} : Subst).extendAll block.params c.args))
    exact ⟨_, hp, h.legal_instance hc (fun x hx => (hscope x hx).2) hblock hp.le.sig le_rfl,
      (h.refines_instance hc hblock).mono hp.le le_rfl⟩

theorem inlinePrefix_spec (h : Faithful std roles (fun _ => False) s.program)
    (hscope : roles.sig.Scopes scope)
    (hlegal : (Code.bind vars (.call c) rest).Legal roles.sig scope)
    (hi : inlinePrefix o src vars c rest s = .ok (some code) s') :
    ∃ roles', Improves std roles s.program scope (.bind vars (.call c) rest) roles' s'.program
      code := by
  obtain ⟨hc, hvars, hrest⟩ := hlegal
  obtain ⟨hr, -⟩ | ⟨body, s1, _, hinst, hcode, hr, hs'⟩ := inlinePrefix_eq_ok hi
  · cases hr
  · obtain rfl := Option.some.inj hr
    obtain ⟨block, hblock, rfl, rfl⟩ := instantiate_eq_ok hinst
    rw [hs']
    have hp := h.withTemps (block.code.size_copyFresh s.program.temps
      (({} : Subst).extendAll block.params c.args))
    have hbody := h.legal_instance hc (fun x hx => (hscope x hx).2) hblock hp.le.sig le_rfl
    exact ⟨_, hp, hbody.andThen hp.le.sig hcode (fun v hv => h.temps ▸ Code.boundTemps_copyFresh hv)
      (fun _ => id) (fun _ => .inl) hvars hrest,
      (h.refines_andThen hc hblock hcode).mono hp.le le_rfl⟩

theorem inlineCall_none (h : inlineCall o src vars c rest s = .ok none s') : s' = s := by
  simp only [inlineCall, bind_ok_iff] at h
  obtain ⟨r1, s1, h1, h⟩ := h
  cases r1 with
  | some => cases (pure_ok_iff.mp h).1
  | none =>
    obtain ⟨-, rfl⟩ | ⟨_, _, _, -, -, ⟨⟩, -⟩ := inlinePrefix_eq_ok h1
    simp only [bind_ok_iff] at h
    obtain ⟨r2, s2, h2, h⟩ := h
    cases r2 with
    | some => cases (pure_ok_iff.mp h).1
    | none =>
      obtain rfl := pushEnter_none h2
      exact pushCase_none h

theorem inlineStatements_kept_eq_ok {again : Code → Nat → Pass Code} {t : Tail}
    (h : (do
      let rest ← inlineStatements o src again rest o.inlineNesting
      let tail ← match t with
        | .call c => Tail.call <$> bypassed c
        | tail => pure tail
      return Code.bind vars tail rest : Pass Code) s = .ok code' s') :
    ∃ rest' s1 t', inlineStatements o src again rest o.inlineNesting s = .ok rest' s1 ∧
      code' = .bind vars t' rest' ∧
      ((∃ c c', t = .call c ∧ t' = .call c' ∧ bypassed c s1 = .ok c' s') ∨ t' = t ∧ s' = s1) := by
  obtain ⟨rest', s1, hrest, h⟩ := bind_ok_iff.mp h
  cases t with
  | call c =>
    simp only [bind_ok_iff, map_ok_iff, pure_ok_iff] at h
    obtain ⟨_, _, ⟨c', hc', rfl⟩, rfl, rfl⟩ := h
    exact ⟨rest', s1, _, hrest, rfl, .inl ⟨c, c', rfl, rfl, hc'⟩⟩
  | ret | enter | data | closure | sel | prim =>
    obtain ⟨rfl, rfl⟩ := pure_ok_iff.mp h
    exact ⟨rest', _, _, hrest, rfl, .inr ⟨rfl, rfl⟩⟩

/-- A call is done without, or the rest comes first and then the call is led past other blocks. -/
theorem inlineStatements_bind_eq_ok {again : Code → Nat → Pass Code} {t : Tail} {limit : Nat}
    (h : inlineStatements o src again (.bind vars t rest) limit s = .ok code' s') :
    (∃ c code limit' s1, t = .call c ∧ inlineCall o src vars c rest s = .ok (some code) s1 ∧
      again code limit' s1 = .ok code' s') ∨
    ∃ rest' s1 t', inlineStatements o src again rest o.inlineNesting s = .ok rest' s1 ∧
      code' = .bind vars t' rest' ∧
      ((∃ c c', t = .call c ∧ t' = .call c' ∧ bypassed c s1 = .ok c' s') ∨ t' = t ∧ s' = s1) := by
  cases hcall : t.call? with
  | none =>
    exact .inr (inlineStatements_kept_eq_ok
      (by cases t <;> cases limit <;> first | exact h | cases hcall))
  | some c =>
    obtain rfl : t = .call c := by cases t <;> simp_all [Tail.call?]
    cases limit with
    | zero => exact .inr (inlineStatements_kept_eq_ok h)
    | succ limit =>
      unfold inlineStatements at h
      obtain ⟨r, s1, hr, hnext⟩ := bind_ok_iff.mp h
      cases r with
      | some code => exact .inl ⟨c, code, limit, s1, rfl, hr, hnext⟩
      | none =>
        rw [inlineCall_none hr] at hnext
        exact .inr (inlineStatements_kept_eq_ok hnext)

variable (htops : ∀ r env, std.ref r → ∃ v, (Atom.top r).Has std.base.top env v)

include htops

theorem inlineCall_spec (h : Faithful std roles (fun _ => False) s.program)
    (hscope : roles.sig.Scopes scope)
    (hlegal : (Code.bind vars (.call c) rest).Legal roles.sig scope)
    (hi : inlineCall o src vars c rest s = .ok (some code) s') :
    ∃ roles', Improves std roles s.program scope (.bind vars (.call c) rest) roles' s'.program
      code := by
  simp only [inlineCall, bind_ok_iff] at hi
  obtain ⟨r1, s1, h1, hi⟩ := hi
  cases r1 with
  | some code1 =>
    obtain ⟨⟨⟩, rfl⟩ := pure_ok_iff.mp hi
    exact inlinePrefix_spec h hscope hlegal h1
  | none =>
    obtain ⟨-, rfl⟩ | ⟨_, _, _, -, -, ⟨⟩, -⟩ := inlinePrefix_eq_ok h1
    simp only [bind_ok_iff] at hi
    obtain ⟨r2, s2, h2, hi⟩ := hi
    cases r2 with
    | some code2 =>
      obtain ⟨⟨⟩, rfl⟩ := pure_ok_iff.mp hi
      exact pushEnter_spec h htops hscope hlegal h2
    | none =>
      obtain rfl := pushEnter_none h2
      exact pushCase_spec h hscope hlegal hi

theorem inlineStatements_spec {again : Code → Nat → Pass Code} (hagain : Improver std again) :
    Improver std (inlineStatements o src again) := by
  intro roles s scope code limit code' s' h hscope hlegal hi
  induction code generalizing roles s scope limit code' s' with
  | bind vars t rest ih =>
    obtain ⟨c, code, limit', s1, rfl, hcall, hi⟩ | ⟨rest', s1, t', hrest', rfl, ht'⟩ :=
      inlineStatements_bind_eq_ok hi
    · obtain ⟨roles1, h1⟩ := inlineCall_spec htops h hscope hlegal hcall
      obtain ⟨roles2, h2⟩ := hagain h1.progress.faithful (hscope.mono h1.progress.le.sig) h1.legal
        hi
      exact ⟨roles2, h1.trans h2⟩
    · obtain ⟨ht, hvars, hrest⟩ := hlegal
      obtain ⟨roles1, hp, hlegal', hrefines⟩ := ih h (hscope.bind hvars.allocated) hrest hrest'
      have ht := ht.mono hp.le.sig fun _ => id
      have hvars' := hvars.le hp.le.sig
      have hstep := hrefines.bind hvars.allocated t
      obtain ⟨c, c', rfl, rfl, hc'⟩ | ⟨rfl, rfl⟩ := ht'
      · obtain ⟨hs', hc, hbypass⟩ := bypassed_spec hp.faithful ht hc'
        rw [hs']
        exact ⟨roles1, hp, ⟨hc, hvars', hlegal'⟩, hstep.trans (hbypass.bind vars rest')⟩
      · exact ⟨roles1, hp, ⟨ht, hvars', hlegal'⟩, hstep⟩
  | assert a ctor rest ih =>
    obtain ⟨ha, hctor, hrest⟩ := hlegal
    simp only [inlineStatements, bind_ok_iff, pure_ok_iff] at hi
    obtain ⟨rest', _, hrest', rfl, rfl⟩ := hi
    obtain ⟨roles', hp, hlegal', hrefines⟩ := ih h hscope hrest hrest'
    exact ⟨roles', hp, ⟨ha.mono hp.le.sig fun _ => id, hp.le.sig.ctor hctor, hlegal'⟩,
      hrefines.assert a ctor⟩
  | done t =>
    cases hcall : t.call? with
    | none =>
      have hi : (pure (.done t) : Pass Code) s = .ok code' s' := by
        cases t <;> first | exact hi | cases hcall
      obtain ⟨rfl, rfl⟩ := pure_ok_iff.mp hi
      exact ⟨roles, .refl h hlegal⟩
    | some c =>
      obtain rfl : t = .call c := by cases t <;> simp_all [Tail.call?]
      simp only [inlineStatements, bind_ok_iff] at hi
      obtain ⟨c', s1, hc', hi⟩ := hi
      obtain ⟨hs1, hlegal1, hrefines1⟩ := bypassed_spec h hlegal hc'
      have h1 : Improves std roles s.program scope (.jump c) roles s1.program (.jump c') := by
        rw [hs1]
        exact ⟨h.stay, hlegal1, hrefines1.jump⟩
      cases limit with
      | zero =>
        obtain ⟨rfl, rfl⟩ := pure_ok_iff.mp hi
        exact ⟨roles, h1⟩
      | succ limit =>
        simp only [bind_ok_iff] at hi
        obtain ⟨r, s2, hr, hi⟩ := hi
        cases r with
        | none =>
          obtain ⟨rfl, rfl⟩ := pure_ok_iff.mp hi
          obtain ⟨-, rfl⟩ | ⟨_, _, -, ⟨⟩, -⟩ := inlineSuffix_eq_ok hr
          exact ⟨roles, h1⟩
        | some code =>
          obtain ⟨roles2, h2⟩ := inlineSuffix_spec h1.progress.faithful hscope hlegal1 hr
          obtain ⟨roles3, h3⟩ := hagain h2.progress.faithful (hscope.mono h2.progress.le.sig)
            h2.legal hi
          exact ⟨roles3, (h1.trans h2).trans h3⟩
  | branch test yes no =>
    obtain ⟨htest, hyes, hno⟩ := hlegal
    simp only [inlineStatements, bind_ok_iff, pure_ok_iff] at hi
    obtain ⟨yes', s1, hyes', no', _, hno', rfl, rfl⟩ := hi
    obtain ⟨hs1, hlegal1, hrefines1⟩ := bypassed_spec h hyes hyes'
    obtain ⟨hs2, hlegal2, hrefines2⟩ := bypassed_spec (hs1 ▸ h) hno hno'
    rw [hs2, hs1]
    exact ⟨roles, h.stay, ⟨htest, hlegal1, hlegal2⟩, hrefines1.branch hrefines2 test⟩
  | switch a alts =>
    obtain ⟨ha, hcalls, halts⟩ := hlegal
    simp only [inlineStatements, bind_ok_iff, pure_ok_iff] at hi
    obtain ⟨arms', s1, harms, default', _, hdefault, rfl, rfl⟩ := hi
    obtain ⟨hs1, harms'⟩ := bypassArms_spec h
      (fun arm harm => hcalls _ (List.mem_append_left _ (List.mem_map_of_mem harm))) harms
    obtain ⟨hs2, hdefault'⟩ := bypassDefault_spec (hs1 ▸ h)
      (fun c hc => hcalls c (List.mem_append_right _ (by simpa using hc))) hdefault
    rw [hs2, hs1]
    have hrelated : alts.Related (fun _ c c' => c'.Legal roles.sig scope ∧ c.Refines std roles c')
        ⟨arms', default'⟩ := ⟨harms', hdefault'⟩
    refine ⟨roles, h.stay, ⟨ha, fun c' hc' => ?_, hrelated.legal halts⟩,
      Call.Refines.switch (hrelated.imp fun _ _ _ hcc' => hcc'.2) a⟩
    obtain ⟨-, _, -, hlegal', -⟩ := hrelated.calls hc'
    exact hlegal'

theorem inlineCode_spec (fuel : Nat) : Improver std (inlineCode o src fuel) := by
  induction fuel with
  | zero =>
    intro roles s scope code limit code' s' _ _ _ hi
    simp [inlineCode] at hi
  | succ fuel ih => exact inlineStatements_spec htops ih

end Traversal

theorem reportAll_program {reports : List String} {u : Unit} (h : reportAll reports s = .ok u s') :
    s'.program = s.program := by
  induction reports generalizing s with
  | nil =>
    obtain ⟨-, rfl⟩ := pure_ok_iff.mp h
    rfl
  | cons r rs ih =>
    simp only [reportAll, bind_ok_iff, report_eq_ok_iff, exists_unit] at h
    obtain ⟨_, rfl, h⟩ := h
    have := ih h
    exact this

theorem announce_eq_ok {α : Type} {r : α × List String} {a : α} (h : announce r s = .ok a s') :
    a = r.1 ∧ s'.program = s.program := by
  simp only [announce, bind_ok_iff, pure_ok_iff] at h
  obtain ⟨_, _, hr, rfl, rfl⟩ := h
  exact ⟨rfl, reportAll_program hr⟩

theorem tidy_eq_ok (h : tidy code s = .ok code' s') :
    (∃ reports, code.tidy s.program = .ok (code', reports)) ∧ s'.program = s.program := by
  simp only [tidy, bind_ok_iff, look_eq_ok_iff] at h
  obtain ⟨⟨_, reports⟩, _, ⟨ht, rfl⟩, h⟩ := h
  obtain ⟨rfl, hs'⟩ := announce_eq_ok h
  exact ⟨⟨reports, ht⟩, hs'⟩

theorem simplifyCode_eq_ok (h : simplifyCode code s = .ok code' s') :
    (∃ reports, code.simplifyCases s.program = .ok (code', reports)) ∧ s'.program = s.program := by
  simp only [simplifyCode, bind_ok_iff, look_eq_ok_iff] at h
  obtain ⟨⟨_, reports⟩, _, ⟨ht, rfl⟩, h⟩ := h
  obtain ⟨rfl, hs'⟩ := announce_eq_ok h
  exact ⟨⟨reports, ht⟩, hs'⟩

end Pass

/-- The program after some definitions were worked on. -/
structure Advance (std : Standard) (roles : Roles) (p : Program) (roles' : Roles) (p' : Program) :
    Prop where
  le : roles.Le roles'
  datatypes : p'.datatypes = p.datatypes
  faithful : Faithful std roles' (fun _ => False) p'

namespace Advance

variable {std : Standard} {roles roles1 roles2 : Roles} {p p1 p2 : Program}

theorem refl (h : Faithful std roles (fun _ => False) p) : Advance std roles p roles p :=
  ⟨.refl roles, rfl, h⟩

theorem trans (h : Advance std roles p roles1 p1) (h' : Advance std roles1 p1 roles2 p2) :
    Advance std roles p roles2 p2 :=
  ⟨h.le.trans h'.le, h'.datatypes.trans h.datatypes, h'.faithful⟩

end Advance

section SetCode

variable {std : Standard} {roles roles' : Roles} {p p' : Program}

theorem Improves.setCode {b : BlockId} {role : BlockRole} {block block' : Block} {code : Code}
    (h : Faithful std roles (fun _ => False) p) (hb : roles.block b = some role)
    (hblock : p.blocks[b.index]? = some block)
    (hi : Improves std roles p (named block.params) block.code roles' p' code)
    (hblock' : p'.blocks[b.index]? = some block') :
    Advance std roles p roles' (p'.setBlock b { block' with code }) := by
  obtain ⟨derived, hkept⟩ := hi.progress.keeps.block hblock
  obtain rfl := Option.mem_unique hkept hblock'
  obtain ⟨_, hblock'', -, hparams, hful⟩ := h.block hb
  obtain rfl := Option.mem_unique hblock hblock''
  refine ⟨hi.progress.le, hi.progress.keeps.datatypes, ?_⟩
  refine hi.progress.faithful.setBlock hblock' (fun _ _ => id) rfl rfl rfl
    (fun _ _ _ => ⟨hi.legal, fun roles'' hle depth cost args w e w' hj => ?_⟩) fun _ => .inl
  obtain ⟨hlen, hrun⟩ := (hful id).meets (hi.progress.le.trans hle) hj
  exact ⟨hlen, hi.refines hle (.entry hparams args) (.entry hlen) hrun⟩

end SetCode

namespace Pass

variable {std : Standard} {roles : Roles} {s s' : Workbench} {o : Options} {fuel : Nat}

theorem prepare_spec (h : Faithful std roles (fun _ => False) s.program)
    (hregular : s.program.RegularTypes)
    (hfits : ∀ ctors c, std.fits ctors c ↔ s.program.FitsArms ctors c) {b : BlockId}
    {role : BlockRole}
    (hb : roles.block b = some role) {block : Block}
    (hblock : s.program.blocks[b.index]? = some block)
    {code1 code2 code : Code} {s1 s2 : Workbench} {loops : Bool}
    (htidy : tidy block.code s = .ok code1 s1) (hsimplify : simplifyCode code1 s1 = .ok code2 s2)
    (hloops : s2.program.loopsForever b code2 = .ok loops)
    (hcode : code = if loops then .done (.prim .loop []) else code2) :
    s2.program = s.program ∧
      Improves std roles s.program (named block.params) block.code roles s.program code := by
  obtain ⟨⟨_, htidy⟩, hs1⟩ := tidy_eq_ok htidy
  obtain ⟨⟨_, hsimplify⟩, hs2⟩ := simplifyCode_eq_ok hsimplify
  rw [hs1] at hsimplify hs2
  rw [hs2] at hloops
  refine ⟨hs2, ?_⟩
  obtain ⟨_, hblock', -, -, hful⟩ := h.block hb
  obtain rfl := Option.mem_unique hblock hblock'
  obtain ⟨hlegal1, hrefines1⟩ := h.tidy htidy (hful id).legal
  obtain ⟨hlegal2, hrefines2⟩ := h.simplifyCases hregular hfits hsimplify hlegal1
  have hrefines := hrefines1.trans hrefines2
  cases loops with
  | false =>
    subst hcode
    exact ⟨h.stay, hlegal2, hrefines⟩
  | true =>
    subst hcode
    refine ⟨h.stay, ⟨fun _ ha => (nomatch ha), trivial⟩, ?_⟩
    intro roles' hle depth cost rank env w e w' hbelow hcovers hrun
    exact absurd (hrefines hle hbelow hcovers hrun)
      (h.not_runs_of_loopsForever hb hblock hlegal2 hrefines hloops hle)

theorem inlineBlock_spec (htops : ∀ r env, std.ref r → ∃ v, (Atom.top r).Has std.base.top env v)
    (h : Faithful std roles (fun _ => False) s.program) (hregular : s.program.RegularTypes)
    (hfits : ∀ ctors c, std.fits ctors c ↔ s.program.FitsArms ctors c) {b : BlockId}
    {role : BlockRole}
    (hb : roles.block b = some role) {u : Unit} (hi : inlineBlock o fuel b s = .ok u s') :
    ∃ roles', Advance std roles s.program roles' s'.program := by
  simp only [inlineBlock, bind_ok_iff, look_eq_ok_iff, block_eq_ok_iff,
    get_ok_iff] at hi
  obtain ⟨block, _, ⟨hblock, rfl⟩, _, _, ⟨rfl, rfl⟩, hi⟩ := hi
  split at hi
  · obtain ⟨-, rfl⟩ := pure_ok_iff.mp hi
    exact ⟨roles, .refl h⟩
  · simp only [bind_ok_iff, look_eq_ok_iff] at hi
    obtain ⟨code1, s1, htidy, code2, _, hsimplify, loops, s2, ⟨hloops, rfl⟩, hi⟩ := hi
    obtain ⟨s3, hs3, hi⟩ : ∃ s3, s3.program = s2.program ∧ (inlineCode o b fuel
        (if loops then .done (.prim .loop []) else code2) o.inlineNesting >>= fun code =>
          edit (Edit.modifyBlock b fun block => { block with code })) s3 = .ok u s' := by
      cases loops with
      | false => exact ⟨s2, rfl, hi⟩
      | true =>
        obtain ⟨_, s3, hreport, hi⟩ := bind_ok_iff.mp hi
        exact ⟨s3, by rw [report_eq_ok_iff.mp hreport], hi⟩
    obtain ⟨hs2, hprepared⟩ := prepare_spec h hregular hfits hb hblock htidy hsimplify hloops rfl
    simp only [bind_ok_iff, edit_eq_ok_iff, Edit.modifyBlock_eq_ok_iff] at hi
    obtain ⟨code, s4, hcode, _, ⟨block', hblock', rfl⟩, rfl⟩ := hi
    have hs3 := hs3.trans hs2
    obtain ⟨_, hblock'', -, hparams, -⟩ := h.block hb
    obtain rfl := Option.mem_unique hblock hblock''
    obtain ⟨roles', hinlined⟩ := inlineCode_spec htops fuel (hs3 ▸ h)
      (.entry hparams) hprepared.legal hcode
    rw [hs3] at hinlined
    exact ⟨roles', (hprepared.trans hinlined).setCode h hb hblock hblock'⟩

theorem inlineTail_spec (h : Faithful std roles (fun _ => False) s.program) {scope : List Temp}
    {t : Tail} (ht : t.Legal roles.sig scope) {r : Option Tail} (hi : inlineTail t s = .ok r s') :
    s'.program = s.program ∧ ∀ t' ∈ r, t'.Legal roles.sig scope ∧
      ∀ ⦃roles'⦄, roles.Le roles' → ∀ ⦃room env u w e w'⦄,
        t.Runs (std.meaning roles') room env u w e w' →
          ∃ u', u'.Le u ∧ t'.Runs (std.meaning roles') room env u' w e w' := by
  cases t with
  | call c =>
    simp only [inlineTail, bind_ok_iff, look_eq_ok_iff, block_eq_ok_iff] at hi
    obtain ⟨r', s1, hbypass, block, _, ⟨hblock, rfl⟩, hi⟩ := hi
    obtain ⟨hs1, d, hd, hr', hr''⟩ := bypassGoto_eq_ok hbypass
    obtain ⟨hlegal, hrefines⟩ := h.followGotos ht hd
    rw [hr'] at hblock hi
    rw [hs1] at hblock
    have hbypassed ⦃roles'⦄ (hle : roles.Le roles') ⦃room env u w e w'⦄
        (hrun : (Tail.call c).Runs (std.meaning roles') room env u w e w') :
        ∃ u', u'.Le u ∧ (Tail.call d).Runs (std.meaning roles') room env u' w e w' := by
      obtain ⟨depth, rfl, hrun⟩ := hrun
      obtain ⟨u', hu', hrun'⟩ := hrefines hle hrun
      exact ⟨u', hu', depth, rfl, hrun'⟩
    cases hcode : block.code with
    | done body =>
      simp only [hcode, bind_ok_iff, look_eq_ok_iff, report_eq_ok_iff, exists_unit,
        pure_ok_iff] at hi
      obtain ⟨subst, _, ⟨hsubst, rfl⟩, _, rfl, rfl, rfl⟩ := hi
      obtain ⟨-, rfl⟩ := Subst.bind_eq_ok hsubst
      refine ⟨hs1, fun t' ht' => ?_⟩
      obtain rfl := Option.some.inj ht'
      obtain ⟨hlen, hful⟩ := h.callee hlegal hblock
      have hbody : body.Legal roles.sig (named block.params) := by
        have := hful.legal
        rwa [hcode] at this
      refine ⟨hbody.apply (.refl _) (hlegal.arguments hlen),
        fun roles' hle room env u w e w' hrun => ?_⟩
      obtain ⟨u1, hu1, depth, rfl, hrun1⟩ := hbypassed hle hrun
      obtain ⟨n, vs, rfl, hcarries, hrun2⟩ := hful.runs_of_call hle hrun1
      rw [hcode] at hrun2
      obtain ⟨u2, hu2, hrun2⟩ := hrun2
      exact ⟨u2, hu2.le_block.trans hu1, hrun2.apply (m := std.meaning roles') hcarries⟩
    | bind | assert | branch | switch =>
      simp only [hcode, pure_ok_iff] at hi
      obtain ⟨rfl, rfl⟩ := hi
      refine ⟨hs1, fun t' ht' => ?_⟩
      obtain ⟨x, hx, rfl⟩ := Option.map_eq_some_iff.mp ht'
      obtain rfl := hr'' x hx
      exact ⟨hlegal, hbypassed⟩
  | ret | enter | data | closure | sel | prim =>
    obtain ⟨rfl, rfl⟩ := pure_ok_iff.mp hi
    exact ⟨rfl, fun _ ht' => by cases ht'⟩

theorem inlineTail_of_isPure {t : Tail} (ht : t.isPure = true) : inlineTail t = pure none := by
  cases t <;> first | rfl | cases ht

theorem inlineDefn_spec (htops : ∀ r env, std.ref r → ∃ v, (Atom.top r).Has std.base.top env v)
    (h : Faithful std roles (fun _ => False) s.program) (hregular : s.program.RegularTypes)
    (hfits : ∀ ctors c, std.fits ctors c ↔ s.program.FitsArms ctors c) {d : DefnId}
    (hblock : ∀ b, d = .block b → ∃ role, roles.block b = some role)
    (hclosure : ∀ k, d = .closure k → ∃ role, roles.closure k = some role) {u : Unit}
    (hi : inlineDefn o fuel d s = .ok u s') :
    ∃ roles', Advance std roles s.program roles' s'.program := by
  simp only [inlineDefn, bind_ok_iff, workOn_eq_ok_iff, exists_unit] at hi
  obtain ⟨s1, hs1, hi⟩ := hi
  have hp : s1.program = s.program := by rw [hs1]
  rw [← hp] at h hregular hfits ⊢
  cases d with
  | block b =>
    obtain ⟨role, hrole⟩ := hblock b rfl
    exact inlineBlock_spec htops h hregular hfits hrole hi
  | closure k =>
    simp only [bind_ok_iff, look_eq_ok_iff, closure_eq_ok_iff] at hi
    obtain ⟨closure, _, ⟨hk, rfl⟩, r, s2, hr, hi⟩ := hi
    obtain ⟨role, hrole⟩ := hclosure k rfl
    obtain ⟨_, hk', -, -, hful⟩ := h.closure hrole
    obtain rfl := Option.mem_unique hk hk'
    obtain ⟨hs2, hstep⟩ := inlineTail_spec h hful.legal hr
    cases r with
    | none =>
      obtain ⟨-, rfl⟩ := pure_ok_iff.mp hi
      rw [hs2]
      exact ⟨roles, .refl h⟩
    | some tail =>
      obtain ⟨hlegal, hruns⟩ := hstep tail rfl
      simp only [edit_eq_ok_iff, Edit.modifyClosure_eq_ok_iff] at hi
      obtain ⟨_, ⟨closure', hclosure', rfl⟩, rfl⟩ := hi
      rw [hs2] at hclosure' ⊢
      obtain rfl := Option.mem_unique hk hclosure'
      refine ⟨roles, .refl roles, rfl, h.setClosure hk rfl rfl fun _ _ => ⟨hlegal, ?_⟩⟩
      intro roles' hle room cost stored args w e w' henter
      obtain ⟨hlen, u, hu, hrun⟩ := hful.meets hle henter
      obtain ⟨u', hu', hrun'⟩ := hruns hle hrun
      exact ⟨hlen, u', hu'.ends hu, hrun'⟩
  | top t =>
    simp only [bind_ok_iff, look_eq_ok_iff, top_eq_ok_iff] at hi
    obtain ⟨top, _, ⟨ht, rfl⟩, r, s2, hr, hi⟩ := hi
    rw [inlineTail_of_isPure (h.pure.isPure ht)] at hr
    obtain ⟨rfl, rfl⟩ := pure_ok_iff.mp hr
    obtain ⟨-, rfl⟩ := pure_ok_iff.mp hi
    exact ⟨roles, .refl h⟩

theorem forEach_inlineDefn_spec
    (htops : ∀ r env, std.ref r → ∃ v, (Atom.top r).Has std.base.top env v)
    (h : Faithful std roles (fun _ => False) s.program) (hregular : s.program.RegularTypes)
    (hfits : ∀ ctors c, std.fits ctors c ↔ s.program.FitsArms ctors c) {ds : List DefnId}
    (hblock : ∀ b, .block b ∈ ds → ∃ role, roles.block b = some role)
    (hclosure : ∀ k, .closure k ∈ ds → ∃ role, roles.closure k = some role) {u : Unit}
    (hi : forEach (inlineDefn o fuel) ds s = .ok u s') :
    ∃ roles', Advance std roles s.program roles' s'.program := by
  induction ds generalizing s roles with
  | nil =>
    obtain ⟨-, rfl⟩ := pure_ok_iff.mp hi
    exact ⟨roles, .refl h⟩
  | cons d ds ih =>
    simp only [forEach, bind_ok_iff, exists_unit] at hi
    obtain ⟨s1, hd, hi⟩ := hi
    obtain ⟨roles1, h1⟩ := inlineDefn_spec htops h hregular hfits
      (fun b hb => hblock b (hb ▸ .head ..))
      (fun k hk => hclosure k (hk ▸ .head ..)) hd
    have hdeclares (c : Ctor) : s1.program.Declares c ↔ s.program.Declares c := by
      rw [Declares, Declares, h1.datatypes]
    obtain ⟨roles2, h2⟩ := ih h1.faithful (by rwa [RegularTypes, h1.datatypes])
      (fun ctors c => (hfits ctors c).trans
        ⟨fun hf => ⟨(hdeclares c).mpr hf.declared, hf.ty⟩, fun hf => ⟨(hdeclares c).mp hf.declared,
          hf.ty⟩⟩)
      (fun b hb => (hblock b (.tail _ hb)).imp fun _ => h1.le.block)
      (fun k hk => (hclosure k (.tail _ hk)).imp fun _ => h1.le.closure) hi
    exact ⟨roles2, h1.trans h2⟩

end Pass

end MonadicIR
