import MonadicIR.Proofs.FlowRealms

namespace MonadicIR.Charter

open Pass

variable {r : Charter} {w : Realms} {X : Set DefnId}

section Handoff

variable {h : Handoff} {extras : List Temp} {derive : BlockId → Pass BlockId}

/-- Copies may be mentioned where their sources may be. -/
def KeepsHandoffs (r : Charter) (derive : BlockId → Pass BlockId) : Prop :=
  ∀ w X b, (r.words w X).defn (.block b) →
    r.contract.Keeps w (derive b) fun w' d => (r.words w' X).defn (.block d)

theorem within_handoff (hextras : ∀ t ∈ extras, r.Readable t) (hlen : extras.length = h.extras)
    {v : Temp} (hv : r.Readable v) : (h.tail extras v).Within (r.words w X) := by
  cases h with
  | continuation =>
    obtain ⟨k, rfl⟩ := List.length_eq_one_iff.mp hlen
    simpa [Handoff.tail] using ⟨hextras k (by simp), hv⟩
  | enter arity => simpa [Handoff.tail] using ⟨hv, hextras⟩

section Derive

variable (hderive : r.KeepsHandoffs derive) (hextras : ∀ t ∈ extras, r.Readable t)

include hderive hextras

theorem keeps_handOffCall {c : Call} (hc : c.Within (r.words w X)) :
    r.Gives w X (handOffCall extras derive c) Call.Within := by
  unfold handOffCall
  refine .bind (hderive w X c.target hc.1) fun w1 d hle1 hd => .pure ⟨hd, ?_⟩
  refine List.forall_mem_append.mpr ⟨fun a ha => (hc.2 a ha).later hle1, ?_⟩
  simpa using hextras

theorem keeps_handOffArms {arms : List Arm} (harms : ∀ arm ∈ arms, arm.call.Within (r.words w X)) :
    r.contract.Keeps w (handOffArms extras derive arms)
      fun w' arms' => ∀ arm ∈ arms', arm.call.Within (r.words w' X) := by
  induction arms generalizing w with
  | nil => exact .pure fun _ h => by cases h
  | cons arm arms ih =>
    obtain ⟨harm, harms⟩ := List.forall_mem_cons.mp harms
    unfold handOffArms
    refine .bind (keeps_handOffCall hderive hextras harm) fun w1 c hle1 hc => ?_
    refine .bind (ih fun a ha => (harms a ha).later hle1) fun w2 arms' hle2 harms' => .pure ?_
    exact List.forall_mem_cons.mpr ⟨hc.later hle2, harms'⟩

theorem keeps_handOffDefault {default : Option Call}
    (hdefault : ∀ c, default = some c → c.Within (r.words w X)) :
    r.GivesSome w X (handOffDefault extras derive default) Call.Within := by
  cases default with
  | none => exact .none
  | some c =>
    exact .bind (keeps_handOffCall hderive hextras (hdefault c rfl)) fun w1 c' _ hc' => .some hc'

theorem keeps_handOffCode (hlen : extras.length = h.extras) {code : Code}
    (hcode : code.Within (r.words w X)) :
    r.Gives w X (handOffCode h extras derive code) Code.Within := by
  induction code generalizing w with
  | bind vars tail rest ih =>
    unfold handOffCode
    exact .bind (ih hcode.2) fun w1 rest' hle1 hrest' => .pure ⟨hcode.1.later hle1, hrest'⟩
  | assert a ctor rest ih =>
    unfold handOffCode
    exact .bind (ih hcode.2) fun w1 rest' hle1 hrest' => .pure ⟨hcode.1.later hle1, hrest'⟩
  | done t =>
    have hother : r.Gives w X (do
          if t.blackholes || (← Pass.look (·.tailNeverReturns t)) then return Code.done t
          let v ← Pass.edit Edit.fresh
          return .bind [v] t (.done (h.tail extras v))) Code.Within := by
      refine .bind (.peek _) fun w1 never hle1 _ => ?_
      have ht := hcode.later hle1
      split
      · exact .pure ht
      · exact .bind keeps_fresh fun w2 v hle2 hv =>
          .pure ⟨ht.later hle2, within_handoff hextras hlen hv⟩
    cases t with
    | call c =>
      exact .bind (keeps_handOffCall hderive hextras (Tail.within_call.mp hcode)) fun w1 c' _ hc' =>
        .pure (Code.within_jump.mpr hc')
    | ret _ | enter _ _ | data _ _ | closure _ _ | sel _ _ _ | prim _ _ => exact hother
  | branch test yes no =>
    unfold handOffCode
    refine .bind (keeps_handOffCall hderive hextras hcode.2.1) fun w1 yes' hle1 hyes' => ?_
    refine .bind (keeps_handOffCall hderive hextras (hcode.2.2.later hle1))
      fun w2 no' hle2 hno' => .pure ?_
    exact ⟨hcode.1.later (hle1.trans hle2), hyes'.later hle2, hno'⟩
  | switch a alts =>
    unfold handOffCode
    obtain ⟨harms, hdefault⟩ := within_alts_iff hcode.2
    refine .bind (keeps_handOffArms hderive hextras harms) fun w1 arms hle1 harms' => ?_
    refine .bind (keeps_handOffDefault hderive hextras
      fun c hc => (hdefault c hc).later hle1) fun w2 default hle2 hdefault' => .pure ?_
    exact ⟨hcode.1.later (hle1.trans hle2),
      within_alts (fun arm harm => (harms' arm harm).later hle2) hdefault'⟩

end Derive

theorem keeps_addContinuation (hX : r.flat → X = Set.univ) {v : Temp} (hv : r.Readable v)
    {rest : Code} (hrest : rest.Within (r.words w X)) :
    r.contract.Keeps w (Pass.edit (addContinuation v rest)) fun w' c =>
      (r.words w' X).defn (.closure c.1) ∧ ∀ t ∈ c.2, r.Readable t := by
  -- What is free in the rest is read there, so it may be passed on and stored.
  have hfree : ∀ t ∈ rest.freeTemps, r.Readable t := hrest.freeTemps
  have hstored : ∀ t ∈ rest.freeTemps.filter (· != v), r.Readable t := fun t ht =>
    hfree t (List.mem_filter.mp ht).1
  unfold addContinuation
  simp only [edit_bind, edit_pure]
  refine .bind (keeps_freshLikeAll hfree) fun w1 params hle1 hparams => ?_
  refine .bind (keeps_copyFresh (hrest.later hle1)
    (Subst.within_empty.renameAll rest.freeTemps hparams)) fun w2 copy hle2 hcopy => ?_
  refine .bind (keeps_addBlock (fun _ => .inl (Nat.zero_le _)) (l := ⟨X, .source⟩) rfl hcopy rfl rfl
    hX)
    fun w3 b hle3 hb => ?_
  refine .bind (keeps_freshLikeAll hstored) fun w4 fields hle4 hfields => ?_
  refine .bind (keeps_freshLike hv) fun w5 arg hle5 harg => ?_
  have hs : ((({} : Subst).renameAll (rest.freeTemps.filter (· != v)) fields).renameAll [v]
      [arg]).Within (r.words w5 X) :=
    (Subst.within_empty.renameAll _ hfields).renameAll [v] (by simpa using harg)
  have htail : Tail.Within (r.words w5 X) (.call ⟨b, ((({} : Subst).renameAll
      (rest.freeTemps.filter (· != v)) fields).renameAll [v] [arg]).applyAll
        (rest.freeTemps.map .temp)⟩) := by
    refine Tail.within_call.mpr ⟨⟨_, (hb.mono hle4).mono hle5, subset_rfl⟩, fun a ha => ?_⟩
    obtain ⟨a', ha', rfl⟩ := List.mem_map.mp ha
    obtain ⟨t, ht, rfl⟩ := List.mem_map.mp ha'
    exact hs.apply (hfree t ht)
  refine .bind (keeps_addClosure (fun _ => .inl (Nat.zero_le _)) (l := ⟨X, .source⟩) rfl htail
    (by simpa using harg) rfl rfl hX) fun w6 k _ hk => .pure ⟨⟨_, hk, subset_rfl⟩, hstored⟩

theorem keeps_continuationCandidate (b : BlockId) :
    r.contract.Stays w (continuationCandidate r.options b) := by
  unfold continuationCandidate
  refine .bind (.peek _) fun w1 block _ _ => ?_
  split
  · exact .pure trivial
  · split
    · exact .peek _
    · exact .pure trivial

section Inlining

variable (hinlining : r.options.inlining = true)

include hinlining

/-- The copy is registered before it has a body. Its body is made within its realm, which is the one
of its source, so the copies that it leads to may be mentioned in it. -/
theorem keeps_deriveHandoff (fuel : Nat) : r.KeepsHandoffs (deriveHandoff h fuel) := by
  induction fuel with
  | zero => exact fun _ _ _ _ => .throw r.contract.admits_exhausted
  | succ fuel ih =>
    intro w X b hb
    unfold deriveHandoff
    intro s hs
    refine .look_bind hs fun block hblock => .get_bind hs ?_
    rw [Program.block_eq_ok_iff] at hblock
    have horigin (V : Vocabulary) : (h.origin (block.origin.depth + 1)).Within V := by
      cases h <;> trivial
    split
    · rename_i d hd
      refine .pure hs (hs.derivedBlock hb hblock (fun o ho => ?_) hd)
      exact beq_iff_eq.mp ho ▸ horigin _
    · obtain ⟨l, hl, hreach⟩ := hb
      have hcode := (hs.closed l.reach).block ⟨l, hl, subset_rfl⟩ hblock
      refine Contract.Keeps.bind (keeps_freshParams block.params) (fun w1 own hle1 hown => ?_) s hs
      refine .bind (keeps_freshN h.extras) fun w2 extras hle2 hextras => ?_
      have hle : w ≤ w2 := hle1.trans hle2
      refine .bind (keeps_copyFresh (hcode.later hle)
        (Subst.within_empty.renameAll block.params hown)) fun w3 copy hle3 hcopy => ?_
      have hallowed (d : BlockId) :
          r.options.Allows (.block d) (h.origin (block.origin.depth + 1)) :=
        .inr ⟨hinlining, by cases h <;> rfl, d, rfl⟩
      refine .bind (keeps_addDerivedBlock hallowed ((hl.mono hle).mono hle3)
        (Tail.within_ret.mpr (by simp)) rfl rfl) fun w4 d hle4 hd => ?_
      -- From here on the copy may refer to itself, through the copies that its body leads to.
      have hcopied : copy.1.Within
          (r.words w4 (copyRealm w3 l (h.origin (block.origin.depth + 1))).reach) :=
        (hcopy.later hle4).wider Set.subset_union_left
      refine .bind (keeps_handOffCode ih hextras.2 hextras.1 hcopied) fun w5 code hle5 hcode' => ?_
      have hd5 := hd.mono hle5
      refine .bind (keeps_setCode hd5 hcode') fun w6 _ hle6 _ => .pure ?_
      exact defn_copy (hd5.mono hle6) hreach (horigin _)

theorem keeps_handoffOf {b : BlockId} (hb : (r.words w X).defn (.block b)) :
    r.contract.Keeps w (handoffOf h b) fun w' d => (r.words w' X).defn (.block d) := by
  exact .get_bind fun s _ => keeps_deriveHandoff hinlining _ w X b hb

theorem keeps_pushCase (src : BlockId) (hX : r.flat → X = Set.univ) (vars : List Temp)
    {c : Call} (hc : c.Within (r.words w X)) {rest : Code} (hrest : rest.Within (r.words w X)) :
    r.GivesSome w X (pushCase r.options src vars c rest) Code.Within := by
  unfold pushCase
  split
  · rename_i v
    split
    · rename_i hbranches
      refine .bind (keeps_continuationCandidate c.target) fun w1 candidate hle1 _ => ?_
      split
      · -- The variable is branched on, so it is read.
        have hv : r.Readable v := by
          unfold branchesOn at hbranches
          split at hbranches
          · exact beq_iff_eq.mp hbranches ▸ hrest.1
          · exact beq_iff_eq.mp hbranches ▸ hrest.1
          · cases hbranches
        refine .bind (keeps_addContinuation hX hv (hrest.later hle1)) fun w2 k hle2 hk => ?_
        refine .bind keeps_fresh fun w3 cont hle3 hcont => ?_
        have hle : w ≤ w3 := hle1.trans (hle2.trans hle3)
        refine .bind (keeps_handoffOf hinlining (words_mono hle subset_rfl _ hc.1))
          fun w4 d hle4 hd => ?_
        refine .report_some fun w5 hle5 => ⟨Tail.within_closure.mpr
          ⟨words_mono (hle3.trans (hle4.trans hle5)) subset_rfl _ hk.1, by simpa using hk.2⟩,
          Code.within_jump.mpr ⟨words_mono hle5 subset_rfl _ hd, List.forall_mem_append.mpr ⟨?_,
            ?_⟩⟩⟩
        · exact fun a ha => (hc.2 a ha).later (hle.trans (hle4.trans hle5))
        · simpa using hcont
      · exact .none
    · exact .none
  · exact .none

theorem keeps_pushEnter (src : BlockId) (vars : List Temp) {c : Call}
    (hc : c.Within (r.words w X)) {rest : Code} (hrest : rest.Within (r.words w X)) :
    r.GivesSome w X (pushEnter r.options src vars c rest) Code.Within := by
  unfold pushEnter
  split
  · split
    · rename_i args hentered
      have hargs : ∀ a ∈ args, a.Within (r.words w X) := by
        unfold entered? at hentered
        split at hentered
        · split at hentered
          · obtain rfl := Option.some.inj hentered
            exact (Tail.within_enter.mp hrest).2
          · cases hentered
        · cases hentered
      refine .bind (.peek _) fun w1 block hle1 _ => ?_
      split
      · refine .bind (keeps_handoffOf hinlining (words_mono hle1 subset_rfl _ hc.1))
          fun w2 d hle2 hd => ?_
        refine .report_some fun w3 hle3 => Code.within_jump.mpr
          ⟨words_mono hle3 subset_rfl _ hd, fun a ha => ?_⟩
        exact ((List.mem_append.mp ha).elim (hc.2 a) (hargs a)).later (hle1.trans (hle2.trans hle3))
      · exact .none
    · exact .none
  · exact .none

end Inlining

end Handoff

section Statements

variable (src : BlockId) {c : Call} {vars : List Temp} {rest : Code}

theorem keeps_instantiate (hc : c.Within (r.words w X)) :
    r.Gives w X (instantiate c) Code.Within := by
  unfold instantiate
  refine .look_bind fun p block hp hblock => .look_bind fun _ σ _ hσ => ?_
  have hcode := (hp.closed X).block hc.1 (Program.block_eq_ok_iff.mp hblock)
  exact .bind (keeps_copyFresh hcode (Subst.within_empty.bind hσ hc.2))
    fun w1 copy _ hcopy => .pure hcopy

theorem keeps_inlinePrefix (hc : c.Within (r.words w X)) (hrest : rest.Within (r.words w X)) :
    r.GivesSome w X (inlinePrefix r.options src vars c rest) Code.Within := by
  unfold inlinePrefix
  refine .bind (.peek _) fun w1 other hle1 _ => ?_
  split
  · refine .bind (.peek _) fun w2 block hle2 _ => ?_
    have hle : w ≤ w2 := hle1.trans hle2
    split
    · split
      · exact .none
      · refine .bind (keeps_instantiate (hc.later hle)) fun w3 body hle3 hbody => ?_
        refine .look_bind fun _ code _ hcode => .report_some fun w4 hle4 => ?_
        exact (hbody.andThen (hrest.later (hle.trans hle3)) hcode).later hle4
    · exact .none
  · exact .none

theorem keeps_suffixFits (b : BlockId) : r.contract.Stays w (suffixFits r.options src b) := by
  unfold suffixFits
  refine .bind (.peek _) fun w1 block _ _ => ?_
  have hfits (w' : Realms) (endless : Bool) : r.contract.Stays w' (do
        if endless then return false
        if block.notes.occurs = 1 ∨ block.code.isDone then return true
        if ← Pass.look (·.guarded src b) then return block.code.suffixLength ≤ r.options.inlineLines
        return false) := by
    split
    · exact .pure trivial
    · split
      · exact .pure trivial
      · refine .bind (.peek _) fun w2 guarded _ _ => ?_
        split <;> exact .pure trivial
  dsimp only
  split
  · exact .bind (.peek _) fun w2 endless _ _ => hfits w2 endless
  · exact .bind (.pure (Q := fun _ _ => True) trivial) fun w2 endless _ _ => hfits w2 endless

theorem keeps_inlineSuffix (hc : c.Within (r.words w X)) :
    r.GivesSome w X (inlineSuffix r.options src c) Code.Within := by
  unfold inlineSuffix
  refine .bind (keeps_suffixFits src c.target) fun w1 fits hle1 _ => ?_
  split
  · refine .bind (keeps_instantiate (hc.later hle1)) fun w2 code _ hcode => ?_
    exact .report_some fun w3 hle3 => hcode.later hle3
  · exact .none

theorem keeps_bypassed (hc : c.Within (r.words w X)) : r.Gives w X (bypassed c) Call.Within := by
  unfold bypassed
  exact .bind (keeps_bypassGoto hc) fun w1 d hle1 hd => .pure (within_getD hle1 hc hd)

theorem keeps_bypassArms {arms : List Arm} (harms : ∀ arm ∈ arms, arm.call.Within (r.words w X)) :
    r.contract.Keeps w (bypassArms arms)
      fun w' arms' => ∀ arm ∈ arms', arm.call.Within (r.words w' X) := by
  induction arms generalizing w with
  | nil => exact .pure fun _ h => by cases h
  | cons arm arms ih =>
    obtain ⟨harm, harms⟩ := List.forall_mem_cons.mp harms
    unfold bypassArms
    refine .bind (keeps_bypassed harm) fun w1 c' hle1 hc' => ?_
    refine .bind (ih fun a ha => (harms a ha).later hle1) fun w2 arms' hle2 harms' => .pure ?_
    exact List.forall_mem_cons.mpr ⟨hc'.later hle2, harms'⟩

theorem keeps_bypassDefault {default : Option Call}
    (hdefault : ∀ c, default = some c → c.Within (r.words w X)) :
    r.GivesSome w X (bypassDefault default) Call.Within := by
  cases default with
  | none => exact .none
  | some c =>
    exact .bind (keeps_bypassed (hdefault c rfl)) fun w1 c' _ hc' => .some hc'

/-- Where nothing is inlined, the rest comes first and then a detour around the call. -/
theorem keeps_inlineStatements_kept {again : Code → Nat → Pass Code} (vars : List Temp)
    {tail : Tail} {rest : Code} (htail : tail.Within (r.words w X))
    (hrest : r.contract.Keeps w (inlineStatements r.options src again rest r.options.inlineNesting)
      fun w' code' => code'.Within (r.words w' X)) :
    r.Gives w X (do
        let rest ← inlineStatements r.options src again rest r.options.inlineNesting
        let tail ← match tail with
          | .call c => Tail.call <$> bypassed c
          | tail => pure tail
        return Code.bind vars tail rest) Code.Within := by
  refine .bind hrest fun w1 rest' hle1 hrest' => ?_
  have htail := htail.later hle1
  dsimp only
  split
  · refine .bind (.map (keeps_bypassed (Tail.within_call.mp htail)) fun w' c' _ hc' =>
      Tail.within_call.mpr hc') fun w2 tail' hle2 htail' => .pure ?_
    exact ⟨htail', hrest'.later hle2⟩
  · exact .bind (.pure htail) fun w2 tail' hle2 htail' =>
      .pure ⟨htail', hrest'.later hle2⟩

variable (hinlining : r.options.inlining = true) (hX : r.flat → X = Set.univ)

include hinlining hX

theorem keeps_inlineCall  (hc : c.Within (r.words w X)) (hrest : rest.Within (r.words w X)) :
    r.GivesSome w X (inlineCall r.options src vars c rest) Code.Within := by
  unfold inlineCall
  refine .bind (keeps_inlinePrefix src hc hrest) fun w1 d hle1 hd => ?_
  cases d with
  | some code => exact .some (hd code rfl)
  | none =>
    have hc1 := hc.later hle1
    have hrest1 := hrest.later hle1
    refine .bind (keeps_pushEnter hinlining src vars hc1 hrest1) fun w2 d hle2 hd => ?_
    cases d with
    | some code => exact .some (hd code rfl)
    | none =>
      exact keeps_pushCase hinlining src hX vars (hc1.later hle2) (hrest1.later hle2)

theorem keeps_inlineStatements  {again : Code → Nat → Pass Code}
    (hagain : ∀ w code limit, code.Within (r.words w X) →
      r.Gives w X (again code limit) Code.Within)
    {code : Code} (hcode : code.Within (r.words w X)) (limit : Nat) :
    r.Gives w X (inlineStatements r.options src again code limit) Code.Within := by
  induction code generalizing w limit with
  | bind vars tail rest ih =>
    have hkept {w' : Realms} (hle : w ≤ w') := keeps_inlineStatements_kept src vars
      (hcode.1.later hle) (ih (hcode.2.later hle) r.options.inlineNesting)
    unfold inlineStatements
    dsimp only
    split
    · refine .bind (keeps_inlineCall src hinlining hX (Tail.within_call.mp hcode.1) hcode.2)
        fun w1 d hle1 hd => ?_
      cases d with
      | some code => exact hagain w1 code _ (hd code rfl)
      | none => exact hkept hle1
    · exact .bind (.pure (Q := fun _ d => d = none) rfl) fun w1 d hle1 hd => hd ▸ hkept hle1
  | assert a ctor rest ih =>
    unfold inlineStatements
    exact .bind (ih hcode.2 limit) fun w1 rest' hle1 hrest' => .pure ⟨hcode.1.later hle1, hrest'⟩
  | done t =>
    cases t with
    | call c =>
      unfold inlineStatements
      refine .bind (keeps_bypassed (Tail.within_call.mp hcode)) fun w1 c' hle1 hc' => ?_
      cases limit with
      | zero => exact .pure (Code.within_jump.mpr hc')
      | succ limit =>
        refine .bind (keeps_inlineSuffix src hc') fun w2 d hle2 hd => ?_
        cases d with
        | some code => exact hagain w2 code limit (hd code rfl)
        | none => exact .pure (Code.within_jump.mpr (hc'.later hle2))
    | ret _ | enter _ _ | data _ _ | closure _ _ | sel _ _ _ | prim _ _ => exact .pure hcode
  | branch test yes no =>
    unfold inlineStatements
    refine .bind (keeps_bypassed hcode.2.1) fun w1 yes' hle1 hyes' => ?_
    refine .bind (keeps_bypassed (hcode.2.2.later hle1)) fun w2 no' hle2 hno' => .pure ?_
    exact ⟨hcode.1.later (hle1.trans hle2), hyes'.later hle2, hno'⟩
  | switch a alts =>
    unfold inlineStatements
    obtain ⟨harms, hdefault⟩ := within_alts_iff hcode.2
    refine .bind (keeps_bypassArms harms) fun w1 arms hle1 harms' => ?_
    refine .bind (keeps_bypassDefault fun c hc => (hdefault c hc).later hle1)
      fun w2 default hle2 hdefault' => .pure ?_
    exact ⟨hcode.1.later (hle1.trans hle2),
      within_alts (fun arm harm => (harms' arm harm).later hle2) hdefault'⟩

theorem keeps_inlineCode  (fuel : Nat) {code : Code}
    (hcode : code.Within (r.words w X)) (limit : Nat) :
    r.Gives w X (inlineCode r.options src fuel code limit) Code.Within := by
  induction fuel generalizing w code limit with
  | zero => exact .throw r.contract.admits_exhausted
  | succ fuel ih =>
    exact keeps_inlineStatements src hinlining hX (fun _ _ limit hcode => ih hcode limit) hcode
      limit

end Statements

section Definitions

theorem keeps_simplifyCode {code : Code} (hcode : code.Within (r.words w X)) :
    r.Gives w X (simplifyCode code) Code.Within := by
  unfold simplifyCode
  exact .look_bind fun p c _ hc => .announce fun w' hle => (hcode.simplifyCases hc).later hle

theorem keeps_inlineBlock (hinlining : r.options.inlining = true) (fuel : Nat) {b : BlockId}
    {l : Realm} (hl : r.Has w (.block b) l) :
    r.contract.Stays w (inlineBlock r.options fuel b) := by
  refine .of_holds fun p hp => ?_
  -- Continuations are added while the block is worked on, and get its realm.
  have hX : r.flat → l.reach = Set.univ := fun hf => hp.flat hf hl
  unfold inlineBlock
  refine .bind (keeps_lookBlock hl) fun w1 block hle1 hblock => ?_
  refine .bind .get fun w2 s hle2 _ => ?_
  split
  · exact .pure trivial
  refine .bind (keeps_tidy (hblock.later hle2)) fun w3 code hle3 hcode => ?_
  refine .bind (keeps_simplifyCode hcode) fun w4 code hle4 hcode => ?_
  refine .bind (.peek _) fun w5 loops hle5 _ => ?_
  have hl5 := ((((hl.mono hle1).mono hle2).mono hle3).mono hle4).mono hle5
  have hrest {w' : Realms} (hle : w5 ≤ w') {code : Code}
    (hcode : code.Within (r.words w' l.reach)) :
      r.contract.Stays w' (do
        let code ← inlineCode r.options b fuel code r.options.inlineNesting
        Pass.edit (Edit.modifyBlock b fun block => { block with code })) :=
    .bind (keeps_inlineCode b hinlining hX fuel hcode _) fun w'' code' hle' hcode' =>
      keeps_setCode ((hl5.mono hle).mono hle') hcode'
  dsimp only
  split
  · refine .bind (.report _) fun w6 _ hle6 _ => ?_
    refine .bind (.pure (Q := fun w' code => code.Within (r.words w' l.reach)) ?_)
      fun w7 code' hle7 hcode' => hrest (hle6.trans hle7) hcode'
    exact Tail.within_prim.mpr (by simp)
  · exact .bind (.pure (Q := fun w' code => code.Within (r.words w' l.reach))
      (hcode.later hle5)) fun w6 code' hle6 hcode' => hrest hle6 hcode'

theorem keeps_inlineTail {t : Tail} (ht : t.Within (r.words w X)) :
    r.GivesSome w X (inlineTail t) t.Becomes := by
  cases t with
  | call c =>
    have hc := Tail.within_call.mp ht
    unfold inlineTail
    refine .bind (keeps_bypassGoto hc) fun w1 d hle1 hd => ?_
    have hc1 := within_getD hle1 hc hd
    refine .look_bind fun p block hp hblock => ?_
    have hcode := (hp.closed X).block hc1.1 (Program.block_eq_ok_iff.mp hblock)
    split
    · rename_i body hbody
      rw [hbody] at hcode
      refine .look_bind fun _ σ _ hσ => .report_some fun w2 hle2 => ⟨?_, fun h => by cases h⟩
      exact ((Subst.within_empty.bind hσ hc1.2).applyTail hcode).later hle2
    · refine .pure fun t' ht' => ?_
      obtain ⟨c', hc', rfl⟩ := Option.map_eq_some_iff.mp ht'
      exact ⟨Tail.within_call.mpr (hd c' hc'), fun h => by cases h⟩
  | ret _ | enter _ _ | data _ _ | closure _ _ | sel _ _ _ | prim _ _ =>
    exact .none

theorem keeps_inlineDefn (hinlining : r.options.inlining = true) (fuel : Nat) {d : DefnId}
    {l : Realm} (hl : r.Has w d l) :
    r.contract.Stays w (inlineDefn r.options fuel d) := by
  unfold inlineDefn
  refine .bind (.workOn _) fun w1 _ hle1 _ => ?_
  have hl1 := hl.mono hle1
  cases d with
  | block b => exact keeps_inlineBlock hinlining fuel hl1
  | closure k =>
    refine .bind (keeps_lookClosure hl1) fun w2 closure hle2 hclosure => ?_
    refine .bind (keeps_inlineTail hclosure) fun w3 d hle3 hd => ?_
    cases d with
    | none => exact .pure trivial
    | some tail => exact keeps_setClosureTail ((hl1.mono hle2).mono hle3) (hd tail rfl).1
  | top t =>
    refine .bind (keeps_lookTop hl1) fun w2 top hle2 htop => ?_
    refine .bind (keeps_inlineTail htop.1) fun w3 d hle3 hd => ?_
    cases d with
    | none => exact .pure trivial
    | some tail => exact keeps_setTopTail (hd tail rfl).1 fun ht => (hd tail rfl).2 (htop.2 ht)

theorem keeps_inlining (hinlining : r.options.inlining = true) (fuel : Nat) :
    r.contract.Stays w (inlining r.options fuel) := by
  unfold inlining
  refine .bind (keeps_onlyNotes Edit.onlyNotes_returnAnalysis) fun w1 _ _ _ => ?_
  refine .get_bind fun s hs => .bind (.forEach fun w' hle d hd => ?_) fun w2 _ _ _ => .workOn _
  -- The components were computed before the pass, and their members keep their realms.
  obtain ⟨l, hl⟩ := hs.retained hd
  exact keeps_inlineDefn hinlining fuel (hl.mono hle)

theorem keeps_simplifyCases : r.contract.Stays w simplifyCases := by
  unfold simplifyCases
  refine .get_bind fun s hs => .bind (.forEach fun w' hle d hd => ?_) fun w1 _ _ _ => .workOn _
  obtain ⟨l, hl⟩ := hs.defns d hd
  cases d with
  | block b =>
    unfold simplifyBlock
    refine .bind (.workOn _) fun w1 _ hle1 _ => ?_
    have hl1 := (hl.mono hle).mono hle1
    refine .bind (keeps_lookBlock hl1) fun w2 block hle2 hblock => ?_
    refine .bind (keeps_simplifyCode hblock) fun w3 code hle3 hcode => ?_
    exact keeps_setCode ((hl1.mono hle2).mono hle3) hcode
  | closure _ | top _ => exact .pure trivial

end Definitions

end MonadicIR.Charter
