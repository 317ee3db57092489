import MonadicIR.Proofs.Components
import MonadicIR.Proofs.Tidying

namespace MonadicIR

open Component List

/-- Does the tail certainly not return, if these blocks do not? -/
def Tail.Endless (f : BlockId → Prop) : Tail → Prop
  | call c => f c.target
  | prim q _ => q.purity = .doesntReturn
  | ret _ | enter .. | data .. | closure .. | sel .. => False

/-- Does the code certainly not return, if these blocks do not? -/
def Code.Endless (f : BlockId → Prop) : Code → Prop
  | done t => t.Endless f
  | bind _ t rest => t.Endless f ∨ rest.Endless f
  | assert _ _ rest => rest.Endless f
  | branch _ yes no => f yes.target ∧ f no.target
  | switch _ alts => ∀ c ∈ alts.calls, f c.target

section Endless

variable {f g : BlockId → Prop}

theorem Tail.Endless.mono {t : Tail} (hfg : ∀ c, t.call? = some c → f c.target → g c.target)
    (h : t.Endless f) : t.Endless g := by
  cases t with
  | call c => exact hfg c rfl h
  | prim => exact h
  | ret | enter | data | closure | sel => exact h.elim

theorem Code.Endless.mono {code : Code} (hfg : ∀ c ∈ code.calls, f c.target → g c.target)
    (h : code.Endless f) : code.Endless g := by
  induction code with
  | done t => exact Tail.Endless.mono (fun c hc => hfg c (by simp [calls, hc])) h
  | bind vars t rest ih =>
    obtain h | h := h
    · exact .inl (h.mono fun c hc => hfg c (by simp [calls, hc]))
    · exact .inr (ih (fun c hc => hfg c (mem_append_right _ hc)) h)
  | assert a ctor rest ih => exact ih hfg h
  | branch test yes no => exact ⟨hfg yes (by simp [calls]) h.1, hfg no (by simp [calls]) h.2⟩
  | switch a alts => exact fun c hc => hfg c hc (h c hc)

variable {m : Meaning} {env : Env} {w w' : World} {e : Result}
  (hjump : ∀ ⦃b⦄, f b → ∀ ⦃depth cost args w e w'⦄, m.jump depth cost b args w e w' → e = .halted)

include hjump

theorem Tail.Runs.of_endless {t : Tail} (ht : t.Endless f) {room : Nat} {u : Use}
    (h : t.Runs m room env u w e w') : e = .halted := by
  cases t with
  | call c =>
    obtain ⟨_, -, _, _, -, -, hj⟩ := h
    exact hjump ht hj
  | prim q args =>
    have hq : q.blackholes = true := by cases q <;> first | rfl | cases ht
    exact Tail.Runs.of_blackholes (t := .prim q args) hq h
  | ret | enter | data | closure | sel => exact ht.elim

theorem Code.Runs.of_endless {code : Code} (hcode : code.Endless f) {r : Rules}
    {depth cost rank : Nat} (h : code.Runs m r depth cost rank env w e w') : e = .halted := by
  induction code generalizing cost rank env w with
  | done t =>
    obtain ⟨u, -, ht⟩ := h
    exact ht.of_endless hjump hcode
  | bind vars t rest ih =>
    obtain ⟨-, u, ⟨-, he, -⟩ | ⟨vs, w1, left, -, ht, -, hrest⟩⟩ := h
    · exact he
    · obtain hcode | hcode := hcode
      · cases ht.of_endless hjump hcode
      · exact ih hcode hrest
  | assert a ctor rest ih =>
    obtain ⟨_, _, _, -, -, -, hrest⟩ := h
    exact ih hcode hrest
  | branch test yes no =>
    obtain ⟨b, u, -, -, _, _, -, -, hj⟩ := h
    cases b with
    | true => exact hjump hcode.1 hj
    | false => exact hjump hcode.2 hj
  | switch a alts =>
    obtain ⟨_, _, taken, u, -, hsel, -, -, _, _, -, -, hj⟩ := h
    exact hjump (hcode taken (Alts.mem_calls_of_select hsel)) hj

end Endless

/-- Blocks of which each certainly does not return, if the others do not, have runs that halt only. -/
theorem Program.halted_of_endless {p : Program} {f : BlockId → Prop}
    (hf : ∀ ⦃b block⦄, f b → p.blocks[b.index]? = some block → block.code.Endless f) {r : Rules}
    {depth cost : Nat} {b : BlockId} {args : List Value} {w w' : World} {e : Result} (hb : f b)
    (h : p.Runs r depth cost b args w e w') : e = .halted := by
  obtain ⟨calls, h⟩ := h
  induction calls generalizing b depth cost args w e w' with
  | zero => exact h.elim
  | succ calls ih =>
    obtain ⟨block, hblock, -, hrun⟩ := h
    exact hrun.of_endless (fun _ hb _ _ _ _ _ _ hj => ih hb hj) (hf hb hblock)

theorem modify_mapIdx {α : Type} {g g' : Nat → α → α} {f : α → α} {i : Nat}
    (hi : ∀ x, f (g i x) = g' i x) (hne : ∀ j ≠ i, ∀ x, g j x = g' j x) (xs : Array α) :
    (xs.mapIdx g).modify i f = xs.mapIdx g' := by
  refine Array.ext (by simp) fun j _ _ => ?_
  simp only [Array.getElem_modify, Array.getElem_mapIdx]
  split
  · subst ‹i = j›
    exact hi _
  · exact hne j (Ne.symm ‹_›) _

namespace Program

/-- The program with a note for each definition, of whether it never returns. -/
def noted (p : Program) (f : DefnId → Bool) : Program :=
  p.mapNotes fun d notes => { notes with neverReturns := f d }

section Noted

variable (p : Program) (f : DefnId → Bool)

theorem exists_noted : ∃ f, p.noted f = p := by
  refine ⟨fun d => ((p.notes d).toOption.getD {}).neverReturns, ?_⟩
  obtain ⟨temps, datatypes, blocks, closures, tops, entrypoints, components⟩ := p
  simp only [noted, mapNotes, notes, block, closure, top, mk.injEq, true_and, and_true]
  refine ⟨?_, ?_, ?_⟩ <;>
    exact Array.ext (by simp) fun i h _ => by
      simp [Array.getElem?_eq_getElem (by simpa using h), Except.map, Except.toOption]

theorem getElem?_blocks_noted (b : BlockId) : (p.noted f).blocks[b.index]? =
    p.blocks[b.index]?.map fun block =>
      { block with notes := { block.notes with neverReturns := f (.block b) } } := by
  simp [noted, mapNotes]

theorem getElem?_closures_noted (k : ClosureId) : (p.noted f).closures[k.index]? =
    p.closures[k.index]?.map fun closure =>
      { closure with notes := { closure.notes with neverReturns := f (.closure k) } } := by
  simp [noted, mapNotes]

theorem getElem?_tops_noted (t : TopId) : (p.noted f).tops[t.index]? =
    p.tops[t.index]?.map fun top =>
      { top with notes := { top.notes with neverReturns := f (.top t) } } := by
  simp [noted, mapNotes]

theorem neverReturns_of_notes_noted {d : DefnId} {notes : Notes}
    (h : (p.noted f).notes d = .ok notes) : notes.neverReturns = f d := by
  cases d <;> simp only [Program.notes, map_eq_ok_iff, block_eq_ok_iff, closure_eq_ok_iff,
    top_eq_ok_iff, noted, mapNotes, Array.getElem?_mapIdx, Option.map_eq_some_iff] at h <;>
    obtain ⟨_, ⟨_, -, rfl⟩, rfl⟩ := h <;> rfl

theorem noted_modifyNotes (d : DefnId) (v : Bool) :
    (p.noted f).modifyNotes d (fun notes => { notes with neverReturns := v }) =
      p.noted (Function.update f d v) := by
  cases d <;> simp [noted, mapNotes, modifyNotes, Function.update_apply] <;>
    refine modify_mapIdx (fun _ => by simp) (fun j hj _ => ?_) _ <;>
    rw [if_neg (by rintro rfl; exact hj rfl)]

end Noted

/-- If what is supposed holds of the other blocks, it holds of this one. -/
def Upholds (p : Program) (f : DefnId → Bool) (d : DefnId) : Prop :=
  ∀ ⦃b block⦄, d = .block b → p.blocks[b.index]? = some block →
    block.code.Endless fun b => f (.block b) = true

section Upholds

variable {p : Program} {f g : DefnId → Bool}

theorem callNeverReturns_noted {c : Call} {v : Bool}
    (h : (p.noted f).callNeverReturns c = .ok v) : f (.block c.target) = v := by
  obtain ⟨block, hblock, hv⟩ := map_eq_ok_iff.mp h
  rw [block_eq_ok_iff, getElem?_blocks_noted, Option.map_eq_some_iff] at hblock
  obtain ⟨block', -, rfl⟩ := hblock
  exact hv

theorem tailNeverReturns_noted {t : Tail} (h : (p.noted f).tailNeverReturns t = .ok true) :
    t.Endless fun b => f (.block b) = true := by
  cases t with
  | call c => exact callNeverReturns_noted h
  | prim q args => exact beq_iff_eq.mp (Except.ok.inj h)
  | ret | enter | data | closure | sel => simp [tailNeverReturns] at h

theorem callsNeverReturn_noted {cs : List Call} (h : (p.noted f).callsNeverReturn cs = .ok true) :
    ∀ c ∈ cs, f (.block c.target) = true := by
  induction cs with
  | nil => simp
  | cons c cs ih =>
    simp only [callsNeverReturn, bind_eq_ok_iff] at h
    obtain ⟨first, hfirst, others, hothers, h⟩ := h
    obtain ⟨rfl, rfl⟩ : first = true ∧ others = true := by simpa [pure, Except.pure] using h
    exact forall_mem_cons.mpr ⟨callNeverReturns_noted hfirst, ih hothers⟩

theorem codeNeverReturns_noted {code : Code} (h : (p.noted f).codeNeverReturns code = .ok true) :
    code.Endless fun b => f (.block b) = true := by
  induction code with
  | done t => exact tailNeverReturns_noted h
  | bind vars t rest ih =>
    obtain ⟨v, ht, h⟩ := bind_eq_ok_iff.mp h
    cases v with
    | true => exact .inl (tailNeverReturns_noted ht)
    | false => exact .inr (ih h)
  | assert a ctor rest ih => exact ih h
  | branch test yes no =>
    obtain ⟨v, hyes, h⟩ := bind_eq_ok_iff.mp h
    cases v with
    | true => exact ⟨callNeverReturns_noted hyes, callNeverReturns_noted h⟩
    | false => cases h
  | switch a alts => exact callsNeverReturn_noted h

theorem upholds_of_defnNeverReturns {d : DefnId}
    (h : (p.noted f).defnNeverReturns d = .ok true) : p.Upholds f d := by
  rintro b block rfl hblock
  obtain ⟨block', hblock', h⟩ := bind_eq_ok_iff.mp h
  rw [block_eq_ok_iff, getElem?_blocks_noted, hblock] at hblock'
  obtain rfl := Option.some.inj hblock'
  exact codeNeverReturns_noted h

theorem Upholds.congr {d : DefnId} (h : p.Upholds f d) (hfg : ∀ e, p.Refers d e → f e = g e) :
    p.Upholds g d := by
  rintro b block rfl hblock
  refine (h rfl hblock).mono fun c hc hf => ?_
  have hcallees : p.callees (.block b) = .ok (distinct block.code.refs) :=
    map_eq_ok_iff.mpr ⟨block, block_eq_ok_iff.mpr hblock, rfl⟩
  rw [← hfg _ ⟨_, hcallees, mem_distinct.mpr (Code.mem_refs.mpr (.inr (.inl ⟨c, hc, rfl⟩)))⟩]
  exact hf

end Upholds

end Program

namespace Edit

variable {p p' : Program} {f : DefnId → Bool} {ds : List DefnId} {u : Unit}

theorem noteNeverReturns_noted {d : DefnId} {v : Bool}
    (h : noteNeverReturns v d (p.noted f) = .ok u p') : p' = p.noted (Function.update f d v) := by
  simp only [noteNeverReturns, modifyNotes, bind_ok_iff, read_eq_ok_iff] at h
  obtain ⟨_, _, ⟨-, rfl⟩, h⟩ := h
  rw [← Program.noted_modifyNotes]
  exact modify_ok_iff.mp h

theorem supposeAll_noted (h : supposeAll ds (p.noted f) = .ok u p') :
    ∃ g, p' = p.noted g ∧ (∀ d ∉ ds, g d = f d) ∧ ∀ d ∈ ds, g d = true := by
  induction ds generalizing f with
  | nil => exact ⟨f, by simpa [supposeAll] using h, fun _ _ => rfl, by simp⟩
  | cons d ds ih =>
    obtain ⟨_, _, hd, h⟩ := bind_ok_iff.mp h
    obtain rfl := noteNeverReturns_noted hd
    obtain ⟨g, rfl, hg, hmem⟩ := ih h
    refine ⟨g, rfl, fun e he => ?_, forall_mem_cons.mpr ⟨?_, hmem⟩⟩
    · rw [mem_cons, not_or] at he
      rw [hg e he.2, Function.update_of_ne he.1]
    · by_cases hd : d ∈ ds
      · exact hmem d hd
      · rw [hg d hd, Function.update_self]

/-- What a round of withdrawals does to a supposition. -/
structure Withdraws (p : Program) (ds : List DefnId) (f g : DefnId → Bool) (some : Bool) :
    Prop where
  outside : ∀ d ∉ ds, g d = f d
  le : ∀ d, g d = true → f d = true
  unchanged : some = false → g = f ∧ ∀ d ∈ ds, f d = true → p.Upholds f d
  changed : some = true → ∃ d ∈ ds, f d = true ∧ g d = false

theorem withdraw_cons_eq_ok {d : DefnId} {v : Bool} (h : withdraw (d :: ds) p = .ok v p') :
    ∃ notes, p.notes d = .ok notes ∧
      ((notes.neverReturns = true ∧ p.defnNeverReturns d = .ok false ∧ v = true ∧ ∃ p1 others,
          noteNeverReturns false d p = .ok () p1 ∧ withdraw ds p1 = .ok others p') ∨
        ((notes.neverReturns = true → p.defnNeverReturns d = .ok true) ∧
          withdraw ds p = .ok v p')) := by
  simp only [withdraw, bind_ok_iff, read_eq_ok_iff] at h
  obtain ⟨notes, p0, ⟨hnotes, hp0⟩, h⟩ := h
  rw [hp0] at h
  refine ⟨notes, hnotes, ?_⟩
  let go (refuted : Bool) : Edit Bool := do
    if refuted then noteNeverReturns false d
    let others ← withdraw ds
    return refuted || others
  have hgo (refuted : Bool) (h : go refuted p = .ok v p') : refuted = true ∧ v = true ∧
    (∃ p1 others,
      noteNeverReturns false d p = .ok () p1 ∧ withdraw ds p1 = .ok others p') ∨
        refuted = false ∧ withdraw ds p = .ok v p' := by
    cases refuted with
    | true =>
      obtain ⟨_, p1, hd, h⟩ := bind_ok_iff.mp h
      obtain ⟨others, _, hothers, h⟩ := bind_ok_iff.mp h
      obtain ⟨rfl, rfl⟩ := pure_ok_iff.mp h
      exact .inl ⟨rfl, rfl, p1, others, hd, hothers⟩
    | false =>
      obtain ⟨others, _, hothers, h⟩ := bind_ok_iff.mp h
      obtain ⟨rfl, rfl⟩ := pure_ok_iff.mp h
      exact .inr ⟨rfl, hothers⟩
  cases hn : notes.neverReturns with
  | false =>
    rw [hn] at h
    obtain ⟨hr, -⟩ | ⟨-, h⟩ := hgo false h
    · cases hr
    · exact .inr ⟨fun hf => absurd hf Bool.false_ne_true, h⟩
  | true =>
    rw [hn] at h
    obtain ⟨holds, p1, hread, h⟩ := bind_ok_iff.mp h
    obtain ⟨hholds, hp1⟩ := read_eq_ok_iff.mp hread
    rw [hp1] at h
    obtain ⟨hr, hrefuted⟩ | ⟨hr, hothers⟩ := hgo (!holds) h
    · obtain rfl : holds = false := by simpa using hr
      exact .inl ⟨rfl, hholds, hrefuted⟩
    · obtain rfl : holds = true := by simpa using hr
      exact .inr ⟨fun _ => hholds, hothers⟩

theorem withdraw_noted {v : Bool} (h : withdraw ds (p.noted f) = .ok v p') :
    ∃ g, p' = p.noted g ∧ Withdraws p ds f g v := by
  induction ds generalizing f v with
  | nil =>
    obtain ⟨rfl, rfl⟩ : v = false ∧ p' = p.noted f := by
      simpa only [withdraw, pure_ok_iff] using h
    exact ⟨f, rfl, fun _ _ => rfl, fun _ => id, fun _ => ⟨rfl, by simp⟩,
      fun hv => absurd hv Bool.false_ne_true⟩
  | cons d ds ih =>
    obtain ⟨notes, hnotes, ⟨hn, -, rfl, _, _, hd, h⟩ | ⟨hn, h⟩⟩ := withdraw_cons_eq_ok h
    · obtain rfl := noteNeverReturns_noted hd
      obtain ⟨g, rfl, hg⟩ := ih h
      have hfd : f d = true := Program.neverReturns_of_notes_noted p f hnotes ▸ hn
      have hle (e : DefnId) (he : g e = true) : e ≠ d ∧ f e = true := by
        have := hg.le e he
        rw [Function.update_apply] at this
        split at this
        · cases this
        · exact ⟨‹_›, this⟩
      refine ⟨g, rfl, fun e he => ?_, fun e he => (hle e he).2,
        fun hv => absurd hv.symm Bool.false_ne_true, fun _ => ⟨d, by simp, hfd, ?_⟩⟩
      · rw [mem_cons, not_or] at he
        rw [hg.outside e he.2, Function.update_of_ne he.1]
      · exact Bool.eq_false_iff.mpr fun hgd => (hle d hgd).1 rfl
    · rw [Program.neverReturns_of_notes_noted p f hnotes] at hn
      obtain ⟨g, rfl, hg⟩ := ih h
      refine ⟨g, rfl, fun e he => hg.outside e (not_mem_of_not_mem_cons he), hg.le,
        fun hv => ⟨(hg.unchanged hv).1, ?_⟩, fun hv => ?_⟩
      · exact forall_mem_cons.mpr
          ⟨fun hfd => Program.upholds_of_defnNeverReturns (hn hfd), (hg.unchanged hv).2⟩
      · obtain ⟨e, he, hfe⟩ := hg.changed hv
        exact ⟨e, mem_cons_of_mem d he, hfe⟩

theorem Withdraws.countP_lt {g : DefnId → Bool} (h : Withdraws p ds f g true) :
    ds.countP g < ds.countP f := by
  obtain ⟨d, hd, hfd, hgd⟩ := h.changed rfl
  obtain ⟨xs, ys, rfl⟩ := append_of_mem hd
  have hle (zs : List DefnId) : zs.countP g ≤ zs.countP f :=
    countP_mono_left fun e _ => h.le e
  have hxs := hle xs
  have hys := hle ys
  simp only [countP_append, countP_cons, hfd, hgd]
  simp only [if_true, Bool.false_eq_true, if_false]
  omega

theorem settle_noted {fuel : Nat} (hfuel : ds.countP f < fuel)
    (h : settle ds fuel (p.noted f) = .ok u p') :
    ∃ g, p' = p.noted g ∧ (∀ d ∉ ds, g d = f d) ∧ ∀ d ∈ ds, g d = true → p.Upholds g d := by
  induction fuel generalizing f with
  | zero => omega
  | succ fuel ih =>
    obtain ⟨v, _, hw, h⟩ := bind_ok_iff.mp h
    obtain ⟨g, rfl, hg⟩ := withdraw_noted hw
    cases v with
    | false =>
      obtain ⟨-, rfl⟩ := pure_ok_iff.mp h
      obtain ⟨rfl, hupholds⟩ := hg.unchanged rfl
      exact ⟨g, rfl, fun _ _ => rfl, hupholds⟩
    | true =>
      have hlt := hg.countP_lt
      obtain ⟨g', rfl, houtside, hupholds⟩ := ih (by omega) h
      exact ⟨g', rfl, fun d hd => (houtside d hd).trans (hg.outside d hd), hupholds⟩

/-- Going on through the components, what was settled stays so, since it refers to nothing ahead. -/
theorem returnAnalysisOf_noted {roots : List DefnId} {before after : List Component}
    (hdec : Decomposition p roots (before ++ after))
    (hbefore : ∀ d ∈ allMembers before, f d = true → p.Upholds f d)
    (h : returnAnalysisOf after (p.noted f) = .ok u p') : ∃ g, p' = p.noted g ∧
      ∀ d ∈ allMembers (before ++ after), g d = true → p.Upholds g d := by
  induction after generalizing before f with
  | nil => exact ⟨f, (pure_ok_iff.mp h).2, by simpa using hbefore⟩
  | cons c after ih =>
    obtain ⟨_, _, hsuppose, h⟩ := bind_ok_iff.mp h
    obtain ⟨_, _, hsettle, h⟩ := bind_ok_iff.mp h
    obtain ⟨f1, rfl, hf1, -⟩ := supposeAll_noted hsuppose
    obtain ⟨f2, rfl, hf2, hmembers⟩ :=
      settle_noted (Nat.lt_succ_of_le countP_le_length) hsettle
    rw [append_cons] at hdec ⊢
    refine ih hdec (fun d hd hfd => ?_) h
    have hsame (e : DefnId) (he : e ∈ allMembers before) : f2 e = f e := by
      have hnot : e ∉ c.members := fun hec => by
        have hnodup := hdec.nodup
        simp only [allMembers, flatMap_append, nodup_append] at hnodup
        exact hnodup.1.2.2 e he e (by simpa using hec) rfl
      rw [hf2 e hnot, hf1 e hnot]
    by_cases hdb : d ∈ allMembers before
    · have hdec' : Decomposition p roots (before ++ c :: after) := by simpa using hdec
      rw [hsame d hdb] at hfd
      exact (hbefore d hdb hfd).congr fun e hde => (hsame e (hdec'.refers_mem hdb hde)).symm
    · rw [allMembers, flatMap_append, mem_append] at hd
      exact hmembers d (by simpa using hd.resolve_left hdb) hfd

theorem returnAnalysis_noted (hp : p.Current) (h : returnAnalysis p = .ok u p') :
    ∃ g, p' = p.noted g ∧ ∀ d, p.Retained d → g d = true → p.Upholds g d := by
  obtain ⟨f, hf⟩ := p.exists_noted
  obtain ⟨q, q', hget, h⟩ := bind_ok_iff.mp h
  obtain ⟨hq, hq'⟩ := get_ok_iff.mp hget
  rw [hq, hq', ← hf] at h
  have hdec : Decomposition p p.roots ([] ++ p.components.toList) :=
    decomposition_ofRoots hp.components
  exact returnAnalysisOf_noted hdec (fun _ hd => nomatch hd) h

end Edit

/-- The analysis notes only what is true, of the blocks that are still part of the program. -/
theorem Program.Current.halted_of_returnAnalysis {p p' : Program} (hp : p.Current) {u : Unit}
    (h : Edit.returnAnalysis p = .ok u p') : ∃ f, p' = p.noted f ∧ ∀ ⦃b⦄, p.Retained (.block b) →
      f (.block b) = true → ∀ ⦃r depth cost args w e w'⦄, p.Runs r depth cost b args w e w' →
        e = .halted := by
  obtain ⟨f, rfl, hf⟩ := Edit.returnAnalysis_noted hp h
  refine ⟨f, rfl, fun b hb hfb r depth cost args w e w' hrun => ?_⟩
  refine halted_of_endless (f := fun b => p.Retained (.block b) ∧ f (.block b) = true) ?_ ⟨hb,
    hfb⟩ hrun
  intro b block ⟨hb, hfb⟩ hblock
  refine (hf _ hb hfb rfl hblock).mono fun c hc hfc => ⟨?_, hfc⟩
  exact hp.retained_of_code hb hblock (Code.mem_refs.mpr (.inr (.inl ⟨c, hc, rfl⟩)))

end MonadicIR
