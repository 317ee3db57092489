import MonadicIR.Proofs.Realms

namespace MonadicIR

open Edit Pass Program List

/-- What a copy does at its start is within the vocabulary. -/
structure Prologue.Within (V : Vocabulary) (x : Prologue) : Prop where
  inits : ∀ i ∈ x.inits, i.2.Within V
  asserts : ∀ i ∈ x.asserts, V.temp i.1
  values : ∀ a ∈ x.values, a.Within V

theorem Prologue.Within.append {V : Vocabulary} {x y : Prologue} (hx : x.Within V)
    (hy : y.Within V) : (x.append y).Within V where
  inits := forall_mem_append.mpr ⟨hx.inits, hy.inits⟩
  asserts := forall_mem_append.mpr ⟨hx.asserts, hy.asserts⟩
  values := forall_mem_append.mpr ⟨hx.values, hy.values⟩

/-- What a tail may become: it mentions nothing new, and allocates if the old one does. -/
abbrev Tail.Becomes (t : Tail) (V : Vocabulary) (t' : Tail) : Prop :=
  t'.Within V ∧ (t.isAllocator = true → t'.isAllocator = true)

variable {r : Charter} {w : Realms} {X : Set DefnId}

theorem Prologue.Within.later {w' : Realms} {x : Prologue} (h : x.Within (r.words w X))
    (hle : w ≤ w') : x.Within (r.words w' X) where
  inits := fun i hi => (h.inits i hi).later hle
  asserts := h.asserts
  values := fun a ha => (h.values a ha).later hle

namespace Charter

section Copies

theorem keeps_prologueOf (param : Temp) {shape : ArgShape} (h : shape.Within (r.words w X)) :
    r.Gives w X (Pass.edit (prologueOf param shape)) Prologue.Within := by
  cases shape with
  | value a =>
    rw [prologueOf, edit_pure]
    exact .pure ⟨by simp, by simp, by simpa using Atom.within_of_isConstant h⟩
  | unknown =>
    simp only [prologueOf, edit_bind, edit_pure]
    exact .bind (keeps_freshParam param) fun w1 v _ hv =>
      .pure ⟨by simp, by simp, by simpa using hv⟩
  | tag ctor =>
    simp only [prologueOf, edit_bind, edit_pure]
    exact .bind (keeps_freshParam param) fun w1 v _ hv =>
      .pure ⟨by simp, by simpa using hv, by simpa using hv⟩
  | data ctor =>
    simp only [prologueOf, edit_bind, edit_pure]
    refine .bind (keeps_freshN ctor.arity) fun w1 fields _ hfields =>
      .bind (keeps_freshParam param) fun w2 v _ hv => .pure ⟨?_, by simp, by simpa using hv⟩
    simpa using hfields.2
  | closure k =>
    simp only [prologueOf, edit_bind, edit_pure]
    refine .bind (.peek _) fun w1 source hle1 _ =>
      .bind (keeps_freshN _) fun w2 fields hle2 hfields =>
      .bind (keeps_freshParam param) fun w3 v hle3 hv => .pure ⟨?_, by simp, by simpa using hv⟩
    have hk := words_mono (hle1.trans (hle2.trans hle3)) subset_rfl _ h
    simpa using ⟨hk, hfields.2⟩

variable {shapes : List ArgShape} {l : Realm} {depth : Nat}

theorem keeps_prologue (params : List Temp) (h : ∀ s ∈ shapes, s.Within (r.words w X)) :
    r.Gives w X (Pass.edit (prologue params shapes)) Prologue.Within := by
  induction params generalizing w shapes with
  | nil =>
    rw [prologue, edit_pure]
    · exact .pure ⟨by simp, by simp, by simp⟩
    · simp
  | cons param params ih =>
    cases shapes with
    | nil =>
      rw [prologue, edit_pure]
      · exact .pure ⟨by simp, by simp, by simp⟩
      · simp
    | cons shape shapes =>
      simp only [prologue, edit_bind, edit_pure]
      obtain ⟨hshape, hshapes⟩ := forall_mem_cons.mp h
      refine .bind (keeps_prologueOf param hshape) fun w1 x hle1 hx =>
        .bind (ih fun s hs => (hshapes s hs).later hle1) fun w2 y hle2 hy => .pure ?_
      exact (hx.later hle2).append hy

theorem keeps_specialiseCode {params : List Temp} {code : Code} (hcode : code.Within (r.words w X))
    (h : ∀ s ∈ shapes, s.Within (r.words w X)) :
    r.contract.Keeps w (Pass.edit (specialiseCode params code shapes))
      fun w' c => c.2.Within (r.words w' X) := by
  unfold specialiseCode
  split
  · simp only [edit_bind, edit_throw]
    exact .throw_bind (r.contract.admits_fault _)
  · simp only [edit_bind, edit_pure]
    refine .bind (keeps_prologue params h) fun w1 x hle1 hx => ?_
    have hs := Subst.within_empty.extendAll params hx.values
    refine .bind (keeps_copyFresh (hcode.later hle1) hs) fun w2 copy hle2 hcopy => .pure ?_
    have hx2 := hx.later hle2
    exact Prologue.within_wrap hx2.inits hx2.asserts hcopy

/-- One more copy is listed, which may be mentioned where its source and the closures are that it
was made for. -/
theorem Fits.addDerived {d e : DefnId} {l m : Realm} {x : Outline} (h : r.Fits w d l x)
    (hm : w.of e = some m) (hreach : m.reach ⊆ l.reach ∪ w.cover m.origin) :
    r.Fits w d l { x with derived := x.derived ++ [e] } where
  origin := h.origin
  body := h.body
  params := h.params
  derived := by
    refine forall_mem_append.mpr ⟨h.derived, ?_⟩
    simpa using ⟨m, hm, hreach⟩
  replacement := h.replacement
  allocates := h.allocates

def copyRealm (w : Realms) (l : Realm) (o : Origin) : Realm := ⟨l.reach ∪ w.cover o, o⟩

theorem defn_copy {w' : Realms} {d : DefnId} {o : Origin} (hd : r.Has w' d (copyRealm w l o))
    (hl : l.reach ⊆ X) (ho : o.Within (r.words w X)) :
    (r.words w' X).defn d := by
  by_cases hfree : r.free
  · exact words_of_free hfree d
  · exact ⟨_, hd, Set.union_subset hl (cover_subset hfree ho)⟩

theorem within_copyRealm (h : ∀ s ∈ shapes, s.Within (r.words w X)) :
    ∀ s ∈ shapes, s.Within (r.words w (copyRealm w l (.known shapes depth)).reach) := by
  intro s hs
  cases s with
  | closure k =>
    by_cases hfree : r.free
    · exact words_of_free hfree _
    · obtain ⟨m, hm, -⟩ := (words_of_bound hfree).mp (h _ hs)
      exact ⟨m, .inr hm, fun e he => .inr ⟨shapes, k, m, rfl, hs, hm, he⟩⟩
  | value a => exact h _ hs
  | unknown | data _ | tag _ => trivial

theorem copyRealm_mono {w' : Realms} (hle : w ≤ w') (l : Realm) (o : Origin) :
    (copyRealm w l o).reach ⊆ (copyRealm w' l o).reach :=
  Set.union_subset_union_right _ (Realms.cover_mono hle o)

theorem keeps_addDerivedBlock {b : BlockId} {block : Block}
    (hallowed : ∀ d, r.options.Allows (.block d) block.origin) (hl : r.Has w (.block b) l)
    (hcode : block.code.Within (r.words w (copyRealm w l block.origin).reach))
    (hderived : block.derived = []) (hreplaced : block.replacement = none) :
    r.contract.Keeps w (Pass.edit (addDerivedBlock b block))
      fun w' d => r.Has w' (.block d) (copyRealm w l block.origin) := by
  refine .of_holds fun p hp => ?_
  simp only [addDerivedBlock, edit_bind, edit_pure]
  have hflat : r.flat → (copyRealm w l block.origin).reach = Set.univ := fun hf => by
    rw [copyRealm, hp.flat hf hl, Set.univ_union]
  refine .bind (keeps_addBlock hallowed rfl hcode hderived hreplaced hflat) fun w1 d hle1 hd => ?_
  refine .bind (keeps_modifyBlock fun hbound m x hm hfits => ?_) fun w2 _ hle2 _ =>
    .pure (hd.mono hle2)
  obtain rfl := Option.some.inj (((hl.mono hle1).resolve_left hbound).symm.trans hm)
  have hlisted := hfits.addDerived (hd.resolve_left hbound) (copyRealm_mono hle1 l block.origin)
  simpa only [Block.outline, map_append, map_cons, map_nil] using hlisted

theorem keeps_addDerivedClosure {k : ClosureId} {source : Closure} (hl : r.Has w (.closure k) l)
    (htail : source.tail.Within (r.words w l.reach)) (hparams : ∀ t ∈ source.params, r.Readable t)
    (hdepth : depth ≤ r.options.deriveDepth) (hshapes : ∀ s ∈ shapes, s.Within (r.words w X)) :
    r.contract.Keeps w (Pass.edit (addDerivedClosure k source shapes depth)) fun w' c =>
      (∃ w1, w ≤ w1 ∧ r.Has w' (.closure c.1) (copyRealm w1 l (.known shapes depth))) ∧
      ∃ m, r.Has w' (.block c.2) m := by
  refine .of_holds fun p hp => ?_
  have hreach : l.reach ⊆ (copyRealm w l (.known shapes depth)).reach := Set.subset_union_left
  have hflat {w' : Realms} {o : Origin} : r.flat → (copyRealm w' l o).reach = Set.univ :=
    fun hf => by
    rw [copyRealm, hp.flat hf hl, Set.univ_union]
  have hfull : ∀ s ∈ shapes ++ source.params.map fun _ => .unknown,
      s.Within (r.words w (copyRealm w l (.known shapes depth)).reach) := by
    refine forall_mem_append.mpr ⟨within_copyRealm hshapes, fun s hs => ?_⟩
    obtain ⟨_, -, rfl⟩ := mem_map.mp hs
    trivial
  simp only [addDerivedClosure, edit_bind, edit_pure]
  have hbody : (Code.done source.tail).Within
      (r.words w (copyRealm w l (.known shapes depth)).reach) := Code.Within.wider htail hreach
  refine .bind (keeps_specialiseCode hbody hfull) fun w1 c hle1 hcode => ?_
  refine .bind (keeps_freshN _) fun w2 stored hle2 hstored => ?_
  refine .bind (keeps_freshLikeAll hparams) fun w3 params hle3 hnew => ?_
  have hle : w ≤ w3 := hle1.trans (hle2.trans hle3)
  -- The block gets the realm of the closure, whatever the shapes of its further parameters are.
  refine .bind (keeps_addBlock (fun _ => .inl hdepth)
    (l := ⟨(copyRealm w3 l (.known shapes depth)).reach, .known _ depth⟩) rfl
    ((hcode.later (hle2.trans hle3)).wider (copyRealm_mono hle l _)) rfl rfl hflat)
    fun w4 body hle4 hbody => ?_
  have hcall : Tail.Within (r.words w4 (copyRealm w3 l (.known shapes depth)).reach)
      (.call ⟨body, (stored ++ params).map .temp⟩) := by
    refine Tail.within_call.mpr ⟨⟨_, hbody, subset_rfl⟩, fun a ha => ?_⟩
    obtain ⟨t, ht, rfl⟩ := mem_map.mp ha
    exact (mem_append.mp ht).elim (hstored.2 t) (hnew t)
  refine .bind (keeps_addClosure (fun _ => .inl hdepth) (l := copyRealm w3 l (.known shapes depth))
    rfl hcall hnew rfl rfl hflat) fun w5 derived hle5 hderived => ?_
  refine .bind (keeps_modifyClosure fun hbound m x hm hfits => ?_) fun w6 _ hle6 _ =>
    .pure ⟨⟨w3, hle, hderived.mono hle6⟩, _, (hbody.mono hle5).mono hle6⟩
  have hl5 := ((hl.mono hle).mono hle4).mono hle5
  obtain rfl := Option.some.inj ((hl5.resolve_left hbound).symm.trans hm)
  have hlisted := hfits.addDerived (hderived.resolve_left hbound)
    (copyRealm_mono (hle4.trans hle5) l _)
  simpa only [Closure.outline, map_append, map_cons, map_nil] using hlisted

/-- The values of the earlier positions have names, so a repeated argument gets one of them. -/
theorem keeps_shareParams {kept : List Temp} (params : List Temp) {repeats : List (Option Nat)}
    (hkept : ∀ t ∈ kept, r.Readable t)
    (hrepeats : ∀ i j, repeats[i]? = some (some j) → j < kept.length + i) :
    r.contract.Keeps w (Pass.edit (shareParams kept params repeats))
      fun _ c => ∀ t ∈ c.2, r.Readable t := by
  induction params generalizing w kept repeats with
  | nil =>
    simp only [shareParams, edit_pure]
    exact .pure fun _ ht => by cases ht
  | cons param params ih =>
    -- One position on, there is one more value to choose from.
    have hnext {v : Temp} {x : Option Nat} {rest : List (Option Nat)}
      (hrest : repeats = x :: rest) :
        ∀ i j, rest[i]? = some (some j) → j < (kept ++ [v]).length + i := by
      intro i j hij
      have := hrepeats (i + 1) j (by simpa [hrest] using hij)
      simp only [length_append, length_singleton]
      omega
    have hmore {v : Temp} (hv : r.Readable v) : ∀ t ∈ kept ++ [v], r.Readable t :=
      forall_mem_append.mpr ⟨hkept, by simpa using hv⟩
    cases repeats with
    | nil =>
      simp only [shareParams, edit_pure]
      exact .pure fun _ ht => by cases ht
    | cons x repeats =>
      cases x with
      | none =>
        simp only [shareParams, edit_bind, edit_pure]
        refine .bind (keeps_freshParam param) fun w1 v _ hv =>
          .bind (ih (hmore hv) (hnext rfl)) fun w2 c _ hc => .pure ?_
        exact forall_mem_cons.mpr ⟨hv, hc⟩
      | some j =>
        have hj : j < kept.length := by simpa using hrepeats 0 j rfl
        have hv : r.Readable (kept[j]?.getD .wildcard) := by
          rw [getElem?_eq_getElem hj]
          exact hkept _ (getElem_mem hj)
        simp only [shareParams, edit_bind, edit_pure]
        refine .bind (ih (hmore hv) (hnext rfl)) fun w1 c _ hc => .pure ?_
        exact forall_mem_cons.mpr ⟨hv, hc⟩

theorem keeps_addSharingBlock {b : BlockId} {source : Block} (hl : r.Has w (.block b) l)
    (hcode : source.code.Within (r.words w l.reach)) (as : List Atom)
    (hdepth : depth ≤ r.options.deriveDepth) :
    r.contract.Keeps w (Pass.edit (addSharingBlock b source (repeatsOf as) depth))
      fun w' d => ∃ w1, w ≤ w1 ∧
        r.Has w' (.block d) (copyRealm w1 l (.shared (repeatsOf as) depth)) := by
  simp only [addSharingBlock, edit_bind]
  refine .bind (keeps_shareParams source.params (by simp) fun i j hij => ?_)
    fun w1 c hle1 hvalues => ?_
  · simpa using lt_of_repeatsOf hij
  · have hs := Subst.within_empty.renameAll (V := r.words w1 l.reach) source.params hvalues
    refine .bind (keeps_copyFresh (hcode.later hle1) hs) fun w2 copy hle2 hcopy => ?_
    refine (keeps_addDerivedBlock ?_ ((hl.mono hle1).mono hle2) ?_ rfl rfl).imp fun w3 d hle3 hd =>
      ⟨w2, hle1.trans hle2, hd⟩
    · exact fun _ => .inl hdepth
    · exact hcopy.wider Set.subset_union_left

end Copies

section Calls

variable {fs : Facts} {c : Call}

/-- A copy that is found again may be mentioned, if it was made for what may be mentioned. -/
theorem Stands.derivedBlock {p : Program} (hp : r.Stands w p) {b d : BlockId} {block : Block}
    (hb : (r.words w X).defn (.block b)) (hblock : p.blocks[b.index]? = some block)
    {fits : Origin → Bool} (hfits : ∀ o, fits o = true → o.Within (r.words w X))
    (hd : p.derivedBlock? block fits = some d) : (r.words w X).defn (.block d) := by
  obtain ⟨x, hx, hmatch⟩ : ∃ x, p.blocks[d.index]? = some x ∧ fits x.origin = true := by
    unfold derivedBlock? at hd
    simpa only [Option.any_eq_true] using List.find?_some hd
  have hmem : .block d ∈ block.outline.derived :=
    mem_map_of_mem (mem_of_find?_eq_some hd)
  exact (hp.closed X).derived hb (outline?_block hblock) hmem (outline?_block hx)
    (hfits _ hmatch)

theorem Stands.derivedClosure {p : Program} (hp : r.Stands w p) {k d : ClosureId}
    {closure : Closure}
    (hk : (r.words w X).defn (.closure k)) (hclosure : p.closures[k.index]? = some closure)
    {fits : Origin → Bool} (hfits : ∀ o, fits o = true → o.Within (r.words w X))
    (hd : p.derivedClosure? closure fits = some d) : (r.words w X).defn (.closure d) := by
  obtain ⟨x, hx, hmatch⟩ : ∃ x, p.closures[d.index]? = some x ∧ fits x.origin = true := by
    unfold derivedClosure? at hd
    simpa only [Option.any_eq_true] using List.find?_some hd
  have hmem : .closure d ∈ closure.outline.derived :=
    mem_map_of_mem (mem_of_find?_eq_some hd)
  exact (hp.closed X).derived hk (outline?_closure hclosure) hmem
    (outline?_closure hx) (hfits _ hmatch)

/-- New copies are worked on within their realms. -/
def KeepsCopies (r : Charter) (onCopy : BlockId → Pass Unit) : Prop :=
  ∀ w b l, r.Has w (.block b) l → r.contract.Stays w (onCopy b)

theorem keeps_reportCall (hc : c.Within (r.words w X)) {text : String} :
    r.GivesSome w X (do report text; pure (some c)) Call.Within :=
  .report_some fun _ hle => hc.later hle

theorem keeps_callSharing (hc : c.Within (r.words w X)) :
    r.GivesSome w X (callSharing r.options c) Call.Within := by
  unfold callSharing
  intro s hs
  dsimp only
  have hargs : ∀ a ∈ withoutRepeats c.args (repeatsOf c.args), a.Within (r.words w X) :=
    fun a ha => hc.2 a (mem_of_mem_withoutRepeats ha)
  simp only [pure_bind]
  split
  · exact Contract.Keeps.none s hs
  refine .look_bind hs fun block hblock => ?_
  rw [block_eq_ok_iff] at hblock
  split
  · exact Contract.Keeps.throw_bind (r.contract.admits_fault _) s hs
  split
  · exact Contract.Keeps.none s hs
  rename_i hdepth
  refine .get_bind hs ?_
  split
  · rename_i d hd
    refine keeps_reportCall ⟨hs.derivedBlock hc.1 hblock (fun o ho => ?_) hd, hargs⟩ s hs
    cases o with
    | known _ _ => cases ho
    | source | shared _ _ | continuation _ | entering _ _ => trivial
  · obtain ⟨l, hl, hreach⟩ := hc.1
    have hcode := (hs.closed l.reach).block ⟨l, hl, subset_rfl⟩ hblock
    refine Contract.Keeps.bind (keeps_addSharingBlock hl hcode c.args (Nat.not_lt.mp hdepth))
      (fun w1 d hle1 hd => ?_) s hs
    obtain ⟨w0, -, hd⟩ := hd
    exact keeps_reportCall ⟨defn_copy (o := .shared (repeatsOf c.args) _) hd hreach trivial,
      fun a ha => (hargs a ha).later hle1⟩

theorem keeps_bypassGoto (hc : c.Within (r.words w X)) :
    r.GivesSome w X (bypassGoto c) Call.Within := by
  unfold bypassGoto
  refine .look_bind fun p d hp hd => ?_
  split
  · exact .none
  · exact keeps_reportCall (hc.followGotos (hp.closed X) hd)

theorem keeps_shortCase (hc : c.Within (r.words w X)) :
    r.GivesSome w X (Pass.shortCase c fs) Call.Within := by
  unfold Pass.shortCase
  refine .look_bind fun p d hp hd => ?_
  split
  · exact .none
  · exact keeps_reportCall (hc.shortCase (hp.closed X) hd)

theorem within_getD {w' : Realms} (hle : w ≤ w') {d : Option Call}
    (hc : c.Within (r.words w X)) (hd : ∀ c', d = some c' → c'.Within (r.words w' X)) :
    (d.getD c).Within (r.words w' X) := by
  cases d with
  | none => exact hc.later hle
  | some c' => exact hd c' rfl

theorem keeps_enterKnown {f : Atom} {args stored : List Atom} {k : ClosureId}
    (hk : (Tail.closure k stored).Within (r.words w X))
    (hargs : ∀ a ∈ args, a.Within (r.words w X)) :
    r.Gives w X (enterKnown f args k stored) Tail.Within := by
  obtain ⟨hdefn, hstored⟩ := Tail.within_closure.mp hk
  unfold enterKnown
  refine .look_bind fun p closure hp hclosure => .look_bind fun _ σ _ hσ => ?_
  obtain ⟨htail, -⟩ := (hp.closed X).closure hdefn (closure_eq_ok_iff.mp hclosure)
  have hσ' : (σ.extendAll closure.params args).Within (r.words w X) :=
    (Subst.within_empty.bind hσ hstored).extendAll closure.params hargs
  split
  · exact .throw_bind (r.contract.admits_fault _)
  · exact .report_pure fun w' hle => (hσ'.applyTail htail).later hle

theorem keeps_returnedFlag (c : Call) : r.contract.Stays w (returnedFlag c) := by
  unfold returnedFlag
  split
  · refine .bind (.peek _) fun w1 block _ _ => ?_
    split <;> exact .pure trivial
  · exact .pure trivial

theorem within_alts {V : Vocabulary} {arms : List Arm} {default : Option Call}
    (harms : ∀ arm ∈ arms, arm.call.Within V) (hdefault : ∀ c, default = some c → c.Within V) :
    Alts.Within V ⟨arms, default⟩ := by
  refine forall_mem_append.mpr ⟨fun c hc => ?_, fun c hc => ?_⟩
  · obtain ⟨arm, harm, rfl⟩ := mem_map.mp hc
    exact harms arm harm
  · exact hdefault c (Option.mem_toList.mp hc)

theorem within_alts_iff {V : Vocabulary} {alts : Alts} (h : alts.Within V) :
    (∀ arm ∈ alts.arms, arm.call.Within V) ∧ ∀ c, alts.default = some c → c.Within V :=
  ⟨fun _ harm => h _ (mem_append_left _ (mem_map_of_mem harm)),
    fun _ hc => h _ (mem_append_right _ (Option.mem_toList.mpr hc))⟩

/-- What becomes of a binding mentions nothing new. -/
def SettledWithin (V : Vocabulary) : Pass.Settled → Prop
  | .dropped s => s.Within V
  | .kept tail s => tail.Within V ∧ s.Within V

end Calls

section Flow

variable {onCopy : BlockId → Pass Unit} {fs : Facts} {c : Call} {t : Tail}
  (hcopy : r.KeepsCopies onCopy) (hfs : fs.Within (r.words w X))

include hcopy hfs

theorem keeps_callKnown (hc : c.Within (r.words w X)) :
    r.GivesSome w X (callKnown r.options onCopy fs c) Call.Within := by
  unfold callKnown
  intro s hs
  refine .look_bind hs fun recursive _ => .get_bind hs ?_
  obtain ⟨hshapes, hargs⟩ := hfs.argShapes (hs.closed X) (!recursive) hc.2
  dsimp only
  generalize fs.argShapes s.program (!recursive) c.args = shaped at hshapes hargs
  obtain ⟨shapes, args⟩ := shaped
  simp only [pure_bind]
  split
  · exact Contract.Keeps.none s hs
  refine .look_bind hs fun block hblock => ?_
  rw [block_eq_ok_iff] at hblock
  split
  · exact Contract.Keeps.throw_bind (r.contract.admits_fault _) s hs
  split
  · exact Contract.Keeps.none s hs
  rename_i hdepth
  have hdepth : block.origin.depth + 1 ≤ r.options.deriveDepth := by
    simp only [Bool.or_eq_true, decide_eq_true_eq, not_or] at hdepth
    omega
  split
  · rename_i d hd
    exact keeps_reportCall ⟨hs.derivedBlock hc.1 hblock
      (fun _ ho => Origin.within_of_isFor ho hshapes) hd, hargs⟩ s hs
  · obtain ⟨l, hl, hreach⟩ := hc.1
    -- The copy is made within its own realm, which is that of its source and of the closures.
    have hcode : block.code.Within
        (r.words w (copyRealm w l (.known shapes (block.origin.depth + 1))).reach) :=
      (hs.closed _).block ⟨l, hl, Set.subset_union_left⟩ hblock
    refine Contract.Keeps.bind (keeps_specialiseCode hcode (within_copyRealm hshapes))
      (fun w1 copy hle1 hcopied => ?_) s hs
    refine .bind (keeps_addDerivedBlock (fun _ => .inl hdepth) (hl.mono hle1)
      (hcopied.wider (copyRealm_mono hle1 l _)) rfl rfl) fun w2 d hle2 hd => ?_
    refine .bind (hcopy w2 d _ hd) fun w3 _ hle3 _ => ?_
    have hd3 := defn_copy (o := .known shapes (block.origin.depth + 1)) (hd.mono hle3) hreach
      fun s hs => (hshapes s hs).later hle1
    exact keeps_reportCall ⟨hd3, fun a ha => (hargs a ha).later (hle1.trans (hle2.trans hle3))⟩

theorem keeps_allocateKnown
    {k : ClosureId} {as : List Atom} (ht : (Tail.closure k as).Within (r.words w X)) :
    r.GivesSome w X (allocateKnown r.options onCopy fs k as) (Tail.closure k as).Becomes := by
  obtain ⟨hk, has⟩ := Tail.within_closure.mp ht
  unfold allocateKnown
  intro s hs
  refine .look_bind hs fun recursive _ => .get_bind hs ?_
  obtain ⟨hshapes, hargs⟩ := hfs.argShapes (hs.closed X) (!recursive) has
  dsimp only
  generalize fs.argShapes s.program (!recursive) as = shaped at hshapes hargs
  obtain ⟨shapes, args⟩ := shaped
  have hdone {w' : Realms} (hle : w ≤ w') {d : ClosureId} (hd : (r.words w' X).defn (.closure d))
      (text : String) :
      r.GivesSome w' X (do report text; pure (some (.closure d args)))
        (Tail.closure k as).Becomes :=
    .report_some fun w'' hle' => ⟨Tail.within_closure.mpr ⟨words_mono hle' subset_rfl _ hd,
      fun a ha =>
      (hargs a ha).later (hle.trans hle')⟩, fun _ => rfl⟩
  simp only [pure_bind]
  split
  · exact Contract.Keeps.none s hs
  refine .look_bind hs fun closure hclosure => ?_
  rw [closure_eq_ok_iff] at hclosure
  split
  · exact Contract.Keeps.throw_bind (r.contract.admits_fault _) s hs
  split
  · exact Contract.Keeps.none s hs
  rename_i hdepth
  have hdepth : closure.origin.depth + 1 ≤ r.options.deriveDepth := by
    simp only [Bool.or_eq_true, decide_eq_true_eq, not_or] at hdepth
    omega
  split
  · -- The copy was made before, for the same shapes.
    rename_i d hd
    exact hdone (le_refl w) (hs.derivedClosure hk hclosure
      (fun _ ho => Origin.within_of_isFor ho hshapes) hd) _ s hs
  · obtain ⟨l, hl, hreach⟩ := hk
    obtain ⟨htail, hparams⟩ := (hs.closed l.reach).closure ⟨l, hl, subset_rfl⟩ hclosure
    refine Contract.Keeps.bind (keeps_addDerivedClosure hl htail hparams hdepth hshapes)
      (fun w1 c hle1 hcopied => ?_) s hs
    obtain ⟨⟨w0, hle0, hd⟩, m, hbody⟩ := hcopied
    refine .bind (hcopy w1 c.2 m hbody) fun w2 _ hle2 _ => ?_
    have hd2 := defn_copy (o := .known shapes (closure.origin.depth + 1)) (hd.mono hle2) hreach
      fun s hs => (hshapes s hs).later hle0
    exact hdone (hle1.trans hle2) hd2 _

theorem keeps_improveCall (hc : c.Within (r.words w X)) :
    r.GivesSome w X (improveCall r.options onCopy fs c) Call.Within := by
  unfold improveCall
  refine .bind (keeps_shortCase hc) fun w1 short hle1 hshort => ?_
  cases short with
  | some short =>
    have hc1 := hshort short rfl
    exact .bind (keeps_bypassGoto hc1) fun w2 d hle2 hd => .some (within_getD hle2 hc1 hd)
  | none =>
    have hc1 := hc.later hle1
    refine .bind (keeps_callKnown hcopy (hfs.later hle1) hc1) fun w2 known hle2 hknown => ?_
    cases known with
    | some known => exact .some (hknown known rfl)
    | none => exact keeps_callSharing (hc1.later hle2)

theorem keeps_improveTail (ht : t.Within (r.words w X)) :
    r.GivesSome w X (improveTail r.options onCopy fs t) t.Becomes := by
  unfold improveTail
  cases t with
  | sel ctor field a =>
    refine .get_bind fun s hs => ?_
    split
    · rename_i c args hdata
      split
      · rename_i value hvalue
        have hargs := Tail.within_data.mp
          (hfs.tailOf (hs.closed X) (Tail.within_sel.mp ht) hdata)
        refine .report_some fun w' hle => ⟨Tail.within_ret.mpr ?_, fun h => by cases h⟩
        split at hvalue
        · simpa using (hargs value (mem_of_getElem? hvalue)).later hle
        · cases hvalue
      · exact .none
    · exact .none
  | enter f args =>
    obtain ⟨hf, hargs⟩ := Tail.within_enter.mp ht
    refine .get_bind fun s hs => ?_
    split
    · rename_i k stored hclosure
      exact .bind (keeps_enterKnown (hfs.tailOf (hs.closed X) hf hclosure) hargs)
        fun w' t' _ ht' => .some ⟨ht', fun h => by cases h⟩
    · exact .none
  -- Of the two kinds of allocation, one becomes an allocation of a copy and one stays as it is.
  | closure k args => exact keeps_allocateKnown hcopy hfs ht
  | call c =>
    refine .bind (keeps_improveCall hcopy hfs (Tail.within_call.mp ht))
      fun w' d _ hd => .pure fun t' ht' => ?_
    obtain ⟨c', hc', rfl⟩ := Option.map_eq_some_iff.mp ht'
    exact ⟨Tail.within_call.mpr (hd c' hc'), fun h => by cases h⟩
  | prim q args =>
    dsimp only
    split
    · rename_i simpler hsimpler
      have hsimple := Prim.within_simplify hfs (Tail.within_prim.mp ht) hsimpler
      exact .report_some fun w' hle => ⟨hsimple.later hle, fun h => by cases h⟩
    · exact .none
  | ret args | data ctor args => exact .none

theorem keeps_finish {s : Subst} (hs : s.Within (r.words w X)) (fuel : Nat)
    (ht : t.Within (r.words w X)) :
    r.Gives w X (finish r.options onCopy fs s fuel t) t.Becomes := by
  induction fuel generalizing w t with
  | zero => exact .pure ⟨hs.applyTail ht, fun h => by simpa [Tail.apply] using h⟩
  | succ fuel ih =>
    unfold finish
    have happly := hs.applyTail ht
    refine .bind (keeps_improveTail hcopy hfs happly) fun w1 d hle1 hd => ?_
    cases d with
    | none => exact .pure ⟨happly.later hle1, fun h => by simpa [Tail.apply] using h⟩
    | some better =>
      obtain ⟨hbetter, halloc⟩ := hd better rfl
      refine (ih (hfs.later hle1) (hs.later hle1) hbetter).imp
        fun w2 t' _ h => ⟨h.1, fun ha => h.2 (halloc ?_)⟩
      simpa [Tail.apply] using ha

theorem keeps_settleBind
    (vars : List Temp) (fuel : Nat) {tail : Tail} (htail : tail.Within (r.words w X)) {s : Subst}
    (hs : s.Within (r.words w X)) :
    r.Gives w X (settleBind r.options onCopy fs vars fuel tail s) SettledWithin := by
  -- The steps before the fuel is looked at are the same for any fuel.
  induction fuel using Nat.strong_induction_on generalizing w tail s with
  | _ fuel ih =>
    have htail' := hs.applyTail htail
    have hs' := hs.remove vars
    unfold settleBind
    dsimp only
    split
    · rename_i v u hreuse
      refine .report_pure fun w' hle => (hs'.extend v ?_).later hle
      unfold settleBind.reusable? at hreuse
      split at hreuse
      · split at hreuse
        · cases hreuse
        · obtain ⟨u', hu', heq⟩ := Option.map_eq_some_iff.mp hreuse
          cases heq
          exact hfs.find hu'
      · cases hreuse
    · split
      · rename_i args hreturned
        refine .report_pure fun w' hle => (hs'.extendAll vars ?_).later hle
        unfold settleBind.returned? at hreturned
        split at hreturned
        · rename_i hret
          split at hreturned
          · obtain rfl := Option.some.inj hreturned
            rw [hret] at htail'
            exact Tail.within_ret.mp htail'
          · cases hreturned
        · cases hreturned
      · cases fuel with
        | zero => exact .pure ⟨htail', hs'⟩
        | succ fuel =>
          refine .bind (keeps_improveTail hcopy hfs htail') fun w1 d hle1 hd => ?_
          have hs1 := hs'.later hle1
          cases d with
          | none => exact .pure ⟨htail'.later hle1, hs1⟩
          | some better =>
            exact ih fuel (Nat.lt_succ_self fuel) (hfs.later hle1) (hd better rfl).1 hs1

theorem keeps_flowBranch (test : Atom) (value : Bool) {c : Call} (hc : c.Within (r.words w X)) :
    r.Gives w X (flowBranch r.options onCopy fs test value c) Call.Within := by
  have himprove {w' : Realms} (hle : w ≤ w') {c' : Call} (hc' : c'.Within (r.words w' X)) :
      r.Gives w' X (do return (← improveCall r.options onCopy fs c').getD c') Call.Within :=
    .bind (keeps_improveCall hcopy (hfs.later hle) hc') fun w1 d hle1 hd =>
      .pure (within_getD hle1 hc' hd)
  unfold flowBranch
  dsimp only
  simp only [pure_bind]
  split
  · split
    · rename_i t _
      have hflag : Subst.Within (r.words w X) (({} : Subst).extend t (.flag value)) :=
        Subst.within_empty.extend t trivial
      exact .bind (.report _) fun w1 _ hle1 _ => himprove hle1 ((hflag.applyCall hc).later hle1)
    · exact himprove (le_refl w) hc
  · exact himprove (le_refl w) hc

theorem keeps_flowBranches {test : Atom} (htest : test.Within (r.words w X)) {yes no : Call}
    (hyes : yes.Within (r.words w X)) (hno : no.Within (r.words w X)) :
    r.Gives w X (flowBranches r.options onCopy fs test yes no) Code.Within := by
  unfold flowBranches
  refine .bind (keeps_flowBranch hcopy hfs test true hyes) fun w1 yes' hle1 hyes' => ?_
  refine .bind (keeps_flowBranch hcopy (hfs.later hle1) test false (hno.later hle1))
    fun w2 no' hle2 hno' => ?_
  refine .bind (keeps_returnedFlag yes') fun w3 ifYes hle3 _ =>
    .bind (keeps_returnedFlag no') fun w4 ifNo hle4 _ => ?_
  have hle : w ≤ w4 := hle1.trans (hle2.trans (hle3.trans hle4))
  split
  · exact .report_pure fun w' hle' => Tail.within_ret.mpr
      (by simpa using htest.later (hle.trans hle'))
  · exact .report_pure fun w' hle' => Tail.within_prim.mpr
      (by simpa using htest.later (hle.trans hle'))
  · exact .report_pure fun w' hle' => Tail.within_ret.mpr (by simp [Atom.Within])
  · exact .pure ⟨htest.later hle, hyes'.later (hle2.trans (hle3.trans hle4)),
      hno'.later (hle3.trans hle4)⟩

theorem keeps_taken (fuel : Nat) {taken : Call} (htaken : taken.Within (r.words w X))
    (text : String) : r.Gives w X (do
        report text
        return Code.done (← finish r.options onCopy fs {} fuel (.call taken))) Code.Within := by
  refine .bind (.report text) fun w1 _ hle1 _ => ?_
  refine .bind (keeps_finish hcopy (hfs.later hle1) Subst.within_empty fuel
    (Tail.within_call.mpr (htaken.later hle1))) fun w2 t _ ht => .pure ?_
  exact ht.1

theorem keeps_flowIf (fuel : Nat) {test : Atom} (htest : test.Within (r.words w X)) {yes no : Call}
    (hyes : yes.Within (r.words w X)) (hno : no.Within (r.words w X)) :
    r.Gives w X (flowIf r.options onCopy fs fuel test yes no) Code.Within := by
  have htaken (b : Bool) {w : Realms} {yes no : Call} (hyes : yes.Within (r.words w X))
      (hno : no.Within (r.words w X)) : (if b then yes else no).Within (r.words w X) := by
    cases b
    · exact hno
    · exact hyes
  induction fuel generalizing w test yes no with
  | zero =>
    unfold flowIf
    split
    · exact keeps_taken hcopy hfs 0 (htaken _ hyes hno) _
    · exact keeps_flowBranches hcopy hfs htest hyes hno
    · exact keeps_flowBranches hcopy hfs htest hyes hno
  | succ fuel ih =>
    unfold flowIf
    split
    · exact keeps_taken hcopy hfs _ (htaken _ hyes hno) _
    · split
      · rename_i fuel' negated hfuel hneg
        cases hfuel
        -- What the test negates is known from an earlier tail, which was within the vocabulary.
        have hnegated : negated.Within (r.words w X) :=
          Tail.within_prim.mp (hfs.lookupTail hneg) negated (mem_singleton_self _)
        exact .bind (.report _) fun w1 _ hle1 _ => ih (hfs.later hle1)
          (hnegated.later hle1) (hno.later hle1) (hyes.later hle1)
      · exact keeps_flowBranches hcopy hfs htest hyes hno
    · exact keeps_flowBranches hcopy hfs htest hyes hno

theorem keeps_flowArms (scrutinee : Atom) {arms : List Arm}
    (harms : ∀ arm ∈ arms, arm.call.Within (r.words w X)) :
    r.contract.Keeps w (flowArms r.options onCopy fs scrutinee arms)
      fun w' arms' => ∀ arm ∈ arms', arm.call.Within (r.words w' X) := by
  induction arms generalizing w with
  | nil => exact .pure fun _ h => by cases h
  | cons arm arms ih =>
    obtain ⟨harm, harms⟩ := forall_mem_cons.mp harms
    unfold flowArms
    dsimp only
    refine .bind (keeps_improveCall hcopy ?_ harm) fun w1 d hle1 hd => ?_
    · split
      · exact hfs.addCtor _ _
      · exact hfs
    refine .bind (ih (hfs.later hle1) fun a ha => (harms a ha).later hle1)
      fun w2 arms' hle2 harms' => .pure ?_
    exact forall_mem_cons.mpr ⟨(within_getD hle1 harm hd).later hle2, harms'⟩

theorem keeps_flowDefault {default : Option Call}
    (hdefault : ∀ c, default = some c → c.Within (r.words w X)) :
    r.GivesSome w X (flowDefault r.options onCopy fs default) Call.Within := by
  cases default with
  | none => exact .none
  | some c =>
    exact .bind (keeps_improveCall hcopy hfs (hdefault c rfl)) fun w1 d hle1 hd =>
      .some (within_getD hle1 (hdefault c rfl) hd)

theorem keeps_flowCase (fuel : Nat) {a : Atom} (ha : a.Within (r.words w X)) {alts : Alts}
    (halts : alts.Within (r.words w X)) :
    r.Gives w X (flowCase r.options onCopy fs fuel a alts) Code.Within := by
  unfold flowCase
  refine .get_bind fun s _ => ?_
  split
  · rename_i taken htaken
    obtain ⟨ctor, -, hselect⟩ := Option.bind_eq_some_iff.mp htaken
    exact keeps_taken hcopy hfs fuel (halts taken (Alts.mem_calls_of_select hselect)) _
  · obtain ⟨harms, hdefault⟩ := within_alts_iff halts
    refine .bind (keeps_flowDefault hcopy hfs hdefault) fun w1 default hle1 hdefault' => ?_
    refine .bind (keeps_flowArms hcopy (hfs.later hle1) a
      fun arm harm => (harms arm harm).later hle1) fun w2 arms hle2 harms' => .pure ?_
    exact ⟨ha.later (hle1.trans hle2), within_alts harms' fun c hc => (hdefault' c hc).later hle2⟩

theorem keeps_flowCode {code : Code} (hcode : code.Within (r.words w X)) {s : Subst}
    (hs : s.Within (r.words w X)) :
    r.Gives w X (flowCode r.options onCopy code fs s) Code.Within := by
  -- Facts and substitution are carried along: both stay within the vocabulary of the code.
  induction code generalizing w fs s with
  | bind vars tail rest ih =>
    unfold flowCode
    refine .bind (keeps_settleBind hcopy hfs vars r.options.attempts hcode.1 hs) fun w1 x hle1 hx =>
      ?_
    have hrest := hcode.2.later hle1
    have hfs1 := hfs.later hle1
    cases x with
    | dropped s' => exact ih hfs1 hrest hx
    | kept tail' s' =>
      refine .bind (ih (hfs1.factsAfter vars hx.1) hrest hx.2) fun w2 rest' hle2 hrest' => .pure ?_
      exact ⟨hx.1.later hle2, hrest'⟩
  | done t =>
    unfold flowCode
    exact .bind (keeps_finish hcopy hfs hs r.options.attempts hcode) fun w1 t' _ ht' => .pure ht'.1
  | assert a ctor rest ih =>
    unfold flowCode
    have ha := hs.apply hcode.1
    dsimp only
    refine .get_bind fun _ _ => ?_
    split
    · exact .bind (.report _) fun w1 _ hle1 _ => ih (hfs.later hle1) (hcode.2.later hle1)
        (hs.later hle1)
    · refine .bind (ih ?_ hcode.2 hs) fun w1 rest' hle1 hrest' => .pure ⟨ha.later hle1, hrest'⟩
      split
      · exact hfs.addCtor _ _
      · exact hfs
  | branch test yes no =>
    exact keeps_flowIf hcopy hfs r.options.attempts (hs.apply hcode.1) (hs.applyCall hcode.2.1)
      (hs.applyCall hcode.2.2)
  | switch a alts =>
    exact keeps_flowCase hcopy hfs r.options.attempts (hs.apply hcode.1)
      (hcode.2.mapCalls fun _ => hs.applyCall)

end Flow

section Definitions

theorem keeps_liveness {code : Code} (hcode : code.Within (r.words w X)) :
    r.Gives w X (liveness code) Code.Within := by
  unfold liveness
  exact .get_bind fun s hs => .announce fun w' hle => (hcode.liveness (hs.closed X)).later hle

theorem keeps_tidy {code : Code} (hcode : code.Within (r.words w X)) :
    r.Gives w X (Pass.tidy code) Code.Within := by
  unfold Pass.tidy
  exact .look_bind fun p c _ hc => .announce fun w' hle => (hcode.tidy hc).later hle

theorem keeps_replaceTops {t : Tail} (ht : t.Within (r.words w X)) :
    r.Gives w X (replaceTops t) t.Becomes := by
  unfold replaceTops
  refine .get_bind fun s hs => .announce fun w' hle => ⟨?_, ?_⟩
  · exact (ht.mapAtoms fun a ha => ha.replaceTop (hs.closed X)).later hle
  · simp [Tail.replaceTops]

/-- A copy may be copied again while it is worked on; the fuel bounds how deep this goes. -/
theorem keeps_flowBlock (fuel : Nat) : r.KeepsCopies (flowBlock r.options fuel) := by
  induction fuel with
  | zero => exact fun _ _ _ _ => .throw r.contract.admits_exhausted
  | succ fuel ih =>
    intro w b l hl
    unfold flowBlock
    refine .bind .get fun w1 s hle1 _ => ?_
    refine .bind (.workOn _) fun w2 _ hle2 _ => ?_
    have hl2 := (hl.mono hle1).mono hle2
    refine .bind (keeps_lookBlock hl2) fun w3 block hle3 hblock => ?_
    refine .bind (keeps_flowCode ih Facts.within_empty hblock Subst.within_empty)
      fun w4 code hle4 hcode => ?_
    refine .bind (keeps_liveness hcode) fun w5 code1 hle5 hcode1 => ?_
    refine .bind (keeps_tidy hcode1) fun w6 code2 hle6 hcode2 => ?_
    have hl6 := (((hl2.mono hle3).mono hle4).mono hle5).mono hle6
    exact .bind (keeps_setCode hl6 hcode2) fun w7 _ _ _ => .workOn _

theorem keeps_flowTail {onCopy : BlockId → Pass Unit} (hcopy : r.KeepsCopies onCopy) {t : Tail}
    (ht : t.Within (r.words w X)) :
    r.GivesSome w X (flowTail r.options onCopy t) t.Becomes := by
  unfold flowTail
  refine .bind (keeps_replaceTops ht) fun w1 t1 hle1 ht1 => ?_
  refine .bind (keeps_finish hcopy Facts.within_empty Subst.within_empty r.options.attempts ht1.1)
    fun w2 t2 _ ht2 => ?_
  split
  · exact .none
  · exact .some ⟨ht2.1, fun h => ht2.2 (ht1.2 h)⟩

theorem keeps_flowDefn (fuel : Nat) {d : DefnId} {l : Realm} (hl : r.Has w d l) :
    r.contract.Stays w (flowDefn r.options fuel d) := by
  unfold flowDefn
  refine .bind (.workOn _) fun w1 _ hle1 _ => ?_
  have hl1 := hl.mono hle1
  cases d with
  | block b => exact keeps_flowBlock fuel w1 b l hl1
  | closure k =>
    refine .bind (keeps_lookClosure hl1) fun w2 closure hle2 hclosure => ?_
    refine .bind (keeps_flowTail (keeps_flowBlock fuel) hclosure) fun w3 d hle3 hd => ?_
    cases d with
    | none => exact .pure trivial
    | some tail => exact keeps_setClosureTail ((hl1.mono hle2).mono hle3) (hd tail rfl).1
  | top t =>
    refine .bind (keeps_lookTop hl1) fun w2 top hle2 htop => ?_
    refine .bind (keeps_flowTail (keeps_flowBlock fuel) htop.1) fun w3 d hle3 hd => ?_
    cases d with
    | none => exact .pure trivial
    | some tail => exact keeps_setTopTail (hd tail rfl).1 fun ht => (hd tail rfl).2 (htop.2 ht)

theorem Stands.defns {p : Program} (hp : r.Stands w p) : ∀ d ∈ p.defns, ∃ l, r.Has w d l := by
  intro d hd
  cases hp with
  | free hfree _ => exact ⟨⟨∅, .source⟩, .inl hfree⟩
  | bound hp =>
    rw [Program.defns, hp.retained.1] at hd
    exact (hp.retained.2 d hd).imp fun _ => .inr

theorem keeps_flow (fuel : Nat) : r.contract.Stays w (Pass.flow r.options fuel) := by
  unfold Pass.flow
  refine .get_bind fun s hs => .bind (.forEach fun w' hle d hd => ?_) fun w1 _ _ _ => .workOn _
  obtain ⟨l, hl⟩ := hs.defns d hd
  exact keeps_flowDefn fuel (hl.mono hle)

end Definitions

end Charter

end MonadicIR
