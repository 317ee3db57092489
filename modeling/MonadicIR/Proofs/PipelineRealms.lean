import MonadicIR.Proofs.Components
import MonadicIR.Proofs.InliningRealms
import MonadicIR.Proofs.Mergeable

namespace MonadicIR

open Component Pass Program List

variable {p : Program} {d : DefnId}

theorem Program.refers_iff {d e : DefnId} :
    p.Refers d e ↔ ∃ x, p.outline? d = some x ∧ e ∈ x.body.refs := by
  cases d with
  | block b => simp [refers_block_iff, outline?, Block.outline]
  | closure k => simp [refers_closure_iff, outline?, Closure.outline, Code.mem_refs_done]
  | top t => simp [refers_top_iff, outline?, TopLevel.outline, Code.mem_refs_done]

theorem Program.defines_of_outline? {x : Outline} (h : p.outline? d = some x) :
    p.defines d = true := by
  cases d <;> obtain ⟨_, hx, -⟩ := Option.map_eq_some_iff.mp h
  · exact defines_block_iff.mpr ⟨_, hx⟩
  · exact defines_closure_iff.mpr ⟨_, hx⟩
  · exact defines_top_iff.mpr ⟨_, hx⟩

theorem Program.outline?_of_defines (h : p.defines d = true) :
    ∃ x, p.outline? d = some x := by
  cases d with
  | block b =>
    obtain ⟨block, hblock⟩ := defines_block_iff.mp h
    exact ⟨_, outline?_block hblock⟩
  | closure k =>
    obtain ⟨closure, hclosure⟩ := defines_closure_iff.mp h
    exact ⟨_, outline?_closure hclosure⟩
  | top t =>
    obtain ⟨top, htop⟩ := defines_top_iff.mp h
    exact ⟨_, outline?_top htop⟩

theorem Program.outline?_setComponents (p : Program) (cs : List Component) :
    (p.setComponents cs).outline? = p.outline? := by
  funext d
  have hd := congrFun (SameButNotes.mapNotes p fun d notes =>
    { notes with component := (positions (cs.map members))[d]? }).outlines d
  cases d <;> exact hd

/-- Is all that is referred to there, also by definitions that are not retained? -/
def Program.Grounded (p : Program) : Prop :=
  ∀ d ∈ p.allDefns, ∀ e ∈ (p.callees d).toOption.getD [], p.defines e = true

instance (p : Program) : Decidable p.Grounded :=
  inferInstanceAs (Decidable (∀ d ∈ p.allDefns, ∀ e ∈ (p.callees d).toOption.getD [], p.defines e =
    true))

theorem Program.mem_callees_iff {d e : DefnId} :
    e ∈ (p.callees d).toOption.getD [] ↔ p.Refers d e := by
  cases hcallees : p.callees d with
  | ok callees => simp [Refers, hcallees, Except.toOption]
  | error f => simp [Refers, hcallees, Except.toOption]

theorem Program.Grounded.dangling? (h : p.Grounded) : p.dangling? = none := by
  refine List.find?_eq_none.mpr fun e he => ?_
  obtain ⟨d, hd, he⟩ := mem_flatMap.mp he
  cases e <;> simp [h d hd _ he]

def Program.mapBodies (p : Program) (f : Code → Code) (g : Tail → Tail) : Program :=
  { p with
    blocks := p.blocks.map fun x => { x with code := f x.code }
    closures := p.closures.map fun x => { x with tail := g x.tail }
    tops := p.tops.map fun x => { x with tail := g x.tail } }

def DefnId.onBody (f : Code → Code) (g : Tail → Tail) : DefnId → Code → Code
  | block _ => f
  | closure _ | top _ => Code.mapTails g

theorem Program.outline?_mapBodies (p : Program) (f : Code → Code) (g : Tail → Tail) (d : DefnId) :
    (p.mapBodies f g).outline? d =
      (p.outline? d).map fun x => { x with body := d.onBody f g x.body } := by
  cases d <;> simp only [outline?, mapBodies, Array.getElem?_map, Option.map_map] <;> rfl

def Pass.optimiseShaken (o : Options) (fuel : Nat) : Pass Stats := do
  simplifyCases
  let sizeBefore := (← get).program.size
  let passes ← mainLoop o fuel (o.maxPasses + 1) 0
  let passes ← mergeLoop o fuel (o.maxPasses + 1) passes
  workOn none
  look Program.check
  let s ← get
  return { passes, changes := s.log.size, sizeBefore, sizeAfter := s.program.size }

theorem Pass.optimise_eq (o : Options) (fuel : Nat) :
    optimise o fuel = look check >>= fun _ => shake >>= fun _ => optimiseShaken o fuel := rfl

/-- The passes that the rounds are made of keep the contract. -/
structure Contract.KeepsPasses {W : Type} [Preorder W] (C : Contract W) (o : Options) (fuel : Nat) :
    Prop where
  simplifyCases (w) : C.Stays w Pass.simplifyCases
  shake (w) : C.Stays w Pass.shake
  unusedArgs (w) : C.Stays w Pass.unusedArgs
  inlining (w) : o.inlining = true → C.Stays w (Pass.inlining o fuel)
  flow (w) : C.Stays w (Pass.flow o fuel)
  collapse (w) : o.merging = true → C.Stays w Pass.collapse

namespace Contract.KeepsPasses

variable {W : Type} [Preorder W] {C : Contract W} {o : Options} {fuel : Nat}
  (h : C.KeepsPasses o fuel)
  (w : W)

theorem startRound : C.Stays w startRound := .of_quiet fun _ => ⟨(), _, rfl, rfl, fun _ => trivial⟩

include h

theorem inlineRound : C.Stays w (Pass.inlineRound o fuel) := by
  unfold Pass.inlineRound
  split
  · rename_i hinlining
    exact .bind (h.inlining w hinlining) fun w1 _ _ _ => h.shake w1
  · exact .pure trivial

theorem flowRound : C.Stays w (Pass.flowRound o fuel) := by
  unfold Pass.flowRound
  split
  · exact .bind (h.flow w) fun w1 _ _ _ => h.shake w1
  · exact .pure trivial

theorem mainRound : C.Stays w (mainRound o fuel) :=
  .bind (startRound w) fun w1 _ _ _ => .bind (h.inlineRound w1) fun w2 _ _ _ =>
    .bind (h.unusedArgs w2) fun w3 _ _ _ => .bind (h.shake w3) fun w4 _ _ _ => h.flowRound w4

theorem mainLoop (left passes : Nat) : C.Stays w (mainLoop o fuel left passes) := by
  induction left generalizing w passes with
  | zero => exact .pure trivial
  | succ left ih =>
    unfold mainLoop
    refine .bind (h.mainRound w) fun w1 _ _ _ => .bind .get fun w2 s _ _ => ?_
    split
    · exact .pure trivial
    · exact ih w2 _

theorem mergeRound : C.Stays w (Pass.mergeRound o fuel) := by
  have hrest (w : W) : C.Stays w (do
      let merged := (← get).count
      Pass.shake
      Pass.inlineRound o fuel
      Pass.flowRound o fuel
      return decide ((← get).count ≠ merged)) := by
    refine .bind .get fun w1 _ _ _ => .bind (h.shake w1) fun w2 _ _ _ => ?_
    refine .bind (h.inlineRound w2) fun w3 _ _ _ => .bind (h.flowRound w3) fun w4 _ _ _ => ?_
    exact .bind .get fun _ _ _ _ => .pure trivial
  unfold Pass.mergeRound
  refine .bind (startRound w) fun w1 _ _ _ => ?_
  dsimp only
  split
  · rename_i hmerging
    exact .bind (h.collapse w1 hmerging) fun w2 _ _ _ => hrest w2
  · exact hrest w1

theorem mergeLoop (left passes : Nat) : C.Stays w (mergeLoop o fuel left passes) := by
  induction left generalizing w passes with
  | zero => exact .pure trivial
  | succ left ih =>
    unfold mergeLoop
    refine .bind (h.mergeRound w) fun w1 more _ _ => .bind .get fun w2 s _ _ => ?_
    split
    · exact .pure trivial
    · exact ih w2 _

theorem optimiseShaken : C.Stays w (optimiseShaken o fuel) := by
  refine .bind (h.simplifyCases w) fun w1 _ _ _ => .bind .get fun w2 _ _ _ => ?_
  refine .bind (h.mainLoop w2 _ _) fun w3 _ _ _ => .bind (h.mergeLoop w3 _ _) fun _ _ _ _ => ?_
  refine .bind (.workOn _) fun _ _ _ _ => .bind (.peek _) fun _ _ _ _ => ?_
  exact .bind .get fun _ _ _ _ => .pure trivial

end Contract.KeepsPasses

namespace Charter

variable {r : Charter} {w w' : Realms} {α : Type} {name : α → DefnId} {a : α} {as : List α}

def Covers (r : Charter) (w : Realms) (name : α → DefnId) (as : List α) : Prop :=
  ∀ a ∈ as, ∃ l, r.Has w (name a) l

namespace Covers

theorem mono (h : r.Covers w name as) (hle : w ≤ w') : r.Covers w' name as := fun a ha =>
  (h a ha).imp fun _ hl => hl.mono hle

theorem tail (h : r.Covers w name (a :: as)) : r.Covers w name as := (forall_mem_cons.mp h).2

theorem append {groups : Groups α} {summary : Word} (h : r.Covers w name (groups.map (·.2)))
    (ha : r.Covers w name (a :: as)) : r.Covers w name ((groups ++ [(summary, a)]).map (·.2)) := by
  simp only [Covers, map_append, forall_mem_append]
  exact ⟨h, fun b hb => (mem_singleton.mp hb) ▸ (forall_mem_cons.mp ha).1⟩

theorem find {groups : Groups α} (h : r.Covers w name (groups.map (·.2))) {summary : Word}
    {same : α → Bool} {other : α} {own : Bool}
    (hother : (if own then none else groups.find summary same) = some other) :
    ∃ l, r.Has w (name other) l := by
  split at hother
  · cases hother
  · obtain ⟨g, hg, rfl⟩ := Option.map_eq_some_iff.mp hother
    exact h _ (mem_map_of_mem (mem_of_find?_eq_some hg))

end Covers

variable {p : Program} {d e : DefnId} {l : Realm} {cs : List Component}

section References

theorem Fitting.refers (h : r.Fitting w p) (hl : w.of d = some l) (hde : p.Refers d e) :
    ∃ m, w.of e = some m ∧ m.reach ⊆ r.inner l d := by
  obtain ⟨x, hx, he⟩ := refers_iff.mp hde
  obtain ⟨y, hy, hfits⟩ := h.fits hl
  obtain rfl := Option.mem_unique hx hy
  exact (words_of_bound h.bound).mp ((Code.within_iff.mp hfits.body).2 e he)

theorem Fitting.leadsTo (h : r.Fitting w p) (hl : w.of d = some l) (hde : p.LeadsTo d e) :
    ∃ m, w.of e = some m ∧ m.reach ⊆ l.reach := by
  induction hde with
  | refl => exact ⟨l, hl, subset_rfl⟩
  | tail _ href ih =>
    obtain ⟨m, hm, hreach⟩ := ih
    obtain ⟨n, hn, hinner⟩ := h.refers hm href
    exact ⟨n, hn, hinner.trans ((h.inner_subset hm).trans hreach)⟩

theorem Fitting.mem_below {t : TopId} (h : r.Fitting w p) (hl : w.of (.top t) = some l)
    (hcycle : Relation.TransGen p.Refers (.top t) (.top t)) : .top t ∈ r.below t := by
  -- The first step leads below the top-level, and no step after it leads out again.
  obtain ⟨e, href, hback⟩ := Relation.TransGen.head'_iff.mp hcycle
  obtain ⟨m, hm, hbelow⟩ := h.refers hl href
  obtain ⟨l', hl', hreach⟩ := h.leadsTo hm hback
  exact hbelow (hreach (h.tops hl').1)

theorem Fitting.reached (h : r.Fitting w p) (hroots : ∀ d ∈ p.roots, ∃ l, w.of d = some l)
    (hcs : ofRoots p p.roots = .ok cs) :
    ∀ d ∈ allMembers cs, ∃ l, w.of d = some l := by
  intro d hd
  obtain ⟨root, hroot, hlead⟩ := ((decomposition_ofRoots hcs).members d).mp hd
  obtain ⟨l, hl⟩ := hroots root hroot
  obtain ⟨m, hm, -⟩ := h.leadsTo hl hlead
  exact ⟨m, hm⟩

theorem Fitting.grounded (h : r.Fitting w p) (hwhole : r.whole) : p.Grounded := by
  intro d _ e he
  have hde := mem_callees_iff.mp he
  obtain ⟨x, hx, -⟩ := refers_iff.mp hde
  obtain ⟨l, hl⟩ := h.whole hwhole hx
  obtain ⟨m, hm, -⟩ := h.refers hl hde
  obtain ⟨y, hy, -⟩ := h.fits hm
  exact defines_of_outline? hy

theorem Fitting.retain (h : r.Fitting w p) (htemps : p.temps.size = 0 → r.wildcard)
    (hentry : p.entrypoints ≠ [] ∧ ∀ d ∈ p.entrypoints, ∃ l, w.of d = some l)
    (hroots : p.roots = p.entrypoints)
    (hcs : ofRoots p p.roots = .ok cs) : r.Holds w (p.setComponents cs) := by
  refine ⟨h.congr (p.outline?_setComponents cs), htemps, hentry, ?_, fun d hd => ?_⟩
  · obtain ⟨root, hroot⟩ := exists_mem_of_ne_nil _ hentry.1
    have hmem := (allMembers_ofRoots hcs).2.1 root (hroots ▸ hroot)
    have hne : cs ≠ [] := by
      rintro rfl
      cases hmem
    simpa [setComponents] using hne
  · refine h.reached (hroots ▸ hentry.2) hcs d ?_
    simpa [Retained, setComponents] using hd

namespace Holds

theorem roots (h : r.Holds w p) : p.roots = p.entrypoints := by
  refine filter_eq_self.mpr fun d hd => ?_
  obtain ⟨l, hl⟩ := h.entrypoints.2 d hd
  obtain ⟨x, hx, -⟩ := h.fits hl
  exact defines_of_outline? hx

theorem illegalNames? (h : r.Holds w p) (hflat : ¬r.flat)
    (hcs : Component.ofRoots p p.roots = .ok cs) {c : Component} (hc : c ∈ cs) :
    Component.illegalNames? p c = none := by
  have hdec := Component.decomposition_ofRoots hcs
  unfold Component.illegalNames?
  refine if_neg fun hbad => ?_
  obtain ⟨hrec, hany⟩ := (Bool.and_eq_true _ _).mp hbad
  obtain ⟨top, htop, hnot⟩ := any_eq_true.mp hany
  obtain ⟨d, hd, hdtop⟩ := mem_filterMap.mp htop
  cases d with
  | block _ | closure _ => cases hdtop
  | top t =>
    -- The component has a cycle, and every member is on one that goes through it.
    obtain ⟨e, he, hcycle⟩ := (hdec.recursive c hc).mp hrec
    obtain ⟨hte, het⟩ := (hdec.connected c hc _ hd e).mp he
    obtain ⟨l, hl⟩ := h.reached (h.roots ▸ h.entrypoints.2) hcs _ (mem_flatMap.mpr ⟨c, hc, hd⟩)
    have hbelow := h.mem_below hl ((Relation.TransGen.trans_right hte hcycle).trans_left het)
    obtain ⟨x, hx, hfits⟩ := h.fits hl
    obtain ⟨tail, htail, halloc⟩ := hfits.allocates t rfl (r.legal hflat t hbelow)
    obtain rfl := Option.some.inj ((Program.outline?_top hdtop).symm.trans hx)
    cases htail
    rw [halloc] at hnot
    cases hnot

theorem complaints (h : r.Holds w p) :
    p.complaints cs = (cs.filterMap (Component.illegalNames? p)).map .illegalRecursion := by
  have hdefined : p.entrypoints.filter (fun d => !p.defines d) = [] := by
    refine filter_eq_nil_iff.mpr fun d hd => ?_
    simp [(mem_filter.mp (h.roots ▸ hd : d ∈ p.roots)).2]
  simp [Program.complaints, hdefined, h.roots, h.entrypoints.1]

end Holds

end References

theorem keeps_computeComponents : r.contract.Keeps w (Pass.edit Edit.computeComponents)
    fun _ complaints => r.free ∨ (¬r.flat → complaints = []) ∧
      ∀ c ∈ complaints, ∃ names, c = .illegalRecursion names := by
  refine .edit fun p hp => ?_
  rw [Edit.computeComponents_eq]
  cases hcs : Component.ofRoots p p.roots with
  | error f => exact ⟨.of_outlines rfl, w, le_refl w, hp, fun _ _ h => by cases h⟩
  | ok cs =>
    refine ⟨.of_outlines (p.outline?_setComponents cs), w, le_refl w, ?_⟩
    cases hp with
    | free hfree hallowed =>
      refine ⟨.free hfree ?_, fun _ _ _ => .inl hfree⟩
      rw [endState, p.outline?_setComponents]
      exact hallowed
    | bound hp =>
      refine ⟨.bound (hp.retain hp.temps hp.entrypoints hp.roots hcs), ?_⟩
      intro complaints q hok
      cases hok
      rw [hp.complaints]
      refine .inr ⟨fun hflat => ?_, fun c hc => ?_⟩
      · exact map_eq_nil_iff.mpr (filterMap_eq_nil_iff.mpr fun c hc =>
          hp.illegalNames? hflat hcs hc)
      · obtain ⟨names, -, rfl⟩ := mem_map.mp hc
        exact ⟨names, rfl⟩

theorem keeps_shake : r.contract.Stays w Pass.shake := by
  unfold Pass.shake
  refine .bind keeps_computeComponents fun w' complaints _ hcomplaints => ?_
  split
  · exact keeps_onlyNotes Edit.onlyNotes_countOccurrences
  · rename_i hsome
    refine .throw ?_
    rintro _ ⟨⟩
    refine hcomplaints.imp_right fun ⟨hnone, hrec⟩ => ⟨?_, hrec⟩
    by_contra hflat
    exact hsome (by rw [hnone hflat]; rfl)

section Bodies

theorem Holds.univ_of_flat (h : r.Holds w p) (hl : w.of d = some l) (hflat : r.flat) :
    r.inner l d = Set.univ := by
  cases d with
  | top t => exact r.below_of_flat hflat t
  | block _ | closure _ => exact h.flat hflat hl

theorem Holds.mapBodies (h : r.Holds w p) {f : Code → Code} {g : Tail → Tail}
    (hf : ∀ X, (r.flat → X = Set.univ) → ∀ c, c.Within (r.words w X) → (f c).Within (r.words w X))
    (hg : ∀ X, (r.flat → X = Set.univ) → ∀ t, t.Within (r.words w X) → (g t).Within (r.words w X))
    (halloc : ∀ t, (g t).isAllocator = t.isAllocator) : r.Holds w (p.mapBodies f g) := by
  refine ⟨⟨h.bound, @fun d l hl => ?_, h.tops, h.flat, fun hwhole d x hx => ?_⟩, h.temps,
    h.entrypoints, h.retained⟩
  · obtain ⟨x, hx, hfits⟩ := h.fits hl
    rw [p.outline?_mapBodies, hx]
    have hbody : (d.onBody f g x.body).Within (r.words w (r.inner l d)) := by
      cases d with
      | block b => exact hf _ (h.univ_of_flat hl) _ hfits.body
      | closure k => exact hfits.body.mapTails (hg _ (h.univ_of_flat hl))
      | top t => exact hfits.body.mapTails (hg _ (h.univ_of_flat hl))
    refine ⟨_, rfl, hfits.withBody _ hbody fun t ht hmust => ?_⟩
    obtain ⟨tail, htail, hallocates⟩ := hfits.allocates t ht hmust
    exact ⟨g tail, by rw [ht, htail]; rfl, (halloc tail).trans hallocates⟩
  · rw [p.outline?_mapBodies] at hx
    obtain ⟨y, hy, -⟩ := Option.map_eq_some_iff.mp hx
    exact h.whole hwhole hy

theorem Stands.mapBodies (h : r.Stands w p) {f : Code → Code} {g : Tail → Tail}
    (hholds : r.Holds w p → r.Holds w (p.mapBodies f g)) : r.Stands w (p.mapBodies f g) := by
  cases h with
  | free hfree hallowed =>
    refine .free hfree fun d x hx => ?_
    rw [p.outline?_mapBodies] at hx
    obtain ⟨y, hy, rfl⟩ := Option.map_eq_some_iff.mp hx
    exact hallowed d y hy
  | bound h => exact .bound (hholds h)

theorem keeps_removeUnused (d : DefnId) (flags : List Bool) :
    r.contract.Stays w (removeUnused d flags) := by
  unfold removeUnused
  refine .bind (.workOn _) fun w1 _ _ _ => ?_
  cases d with
  | block b =>
    exact .bind (keeps_modifyBlock fun _ _ _ _ hfits => hfits) fun w2 _ _ _ => .report _
  | closure k =>
    refine .bind (keeps_modifyClosure fun _ _ _ _ hfits => ?_) fun w2 _ _ _ => .report _
    exact ⟨hfits.origin, hfits.body, hfits.params, hfits.derived, hfits.replacement,
      hfits.allocates⟩
  | top t => exact .pure trivial

theorem Stands.pruneCalls (h : r.Stands w p) (pruned : Usage) : r.Stands w (p.pruneCalls pruned) :=
  h.mapBodies fun h => h.mapBodies
    (fun _ _ _ hc => (hc.mapTails fun _ => pruned.within_pruneTail).mapBranches
      fun _ => pruned.within_pruneCall)
    (fun _ _ _ => pruned.within_pruneTail) pruned.isAllocator_pruneTail

theorem keeps_unusedArgs : r.contract.Stays w unusedArgs := by
  unfold unusedArgs prune
  refine .bind (.peek _) fun w1 usage _ _ => ?_
  refine .bind (.forEach fun w' _ e _ => keeps_removeUnused e.1 e.2) fun w2 _ _ _ => ?_
  refine .bind (.workOn _) fun w3 _ _ _ => ?_
  exact .modify (C := r.contract) (g := (·.pruneCalls (.ofList usage.unused)))
    fun p hp => ⟨.pruned _, hp.pruneCalls _⟩

end Bodies

section Merging

variable {b : BlockId} {k : ClosureId}

theorem words_of_has (hflat : r.flat ∨ r.free) {X : Set DefnId} (hX : r.flat → X = Set.univ)
    (h : ∃ l, r.Has w d l) : (r.words w X).defn d := by
  obtain ⟨l, hl⟩ := h
  obtain hflat | hfree := hflat
  · exact ⟨l, hl, hX hflat ▸ Set.subset_univ _⟩
  · exact words_of_free hfree d

theorem Holds.blockReplacementFrom (h : r.Holds w p) (hflat : r.flat) (fuel : Nat)
    (hb : ∃ l, r.Has w (.block b) l) : ∃ l, r.Has w (.block (p.blockReplacementFrom fuel b)) l := by
  induction fuel generalizing b with
  | zero => exact hb
  | succ fuel ih =>
    unfold blockReplacementFrom
    split
    · rename_i next hnext
      split
      · exact hb
      · -- What a block with a realm was merged into has one, too.
        obtain ⟨l, hl⟩ := hb
        obtain ⟨block, hblock, hrep⟩ := Option.bind_eq_some_iff.mp hnext
        obtain ⟨x, hx, hfits⟩ := h.fits (hl.resolve_left h.bound)
        obtain rfl := Option.some.inj ((outline?_block hblock).symm.trans hx)
        exact ih ((hfits.replacement hflat _ (by simp [Block.outline, hrep])).imp fun _ => .inr)
    · exact hb

theorem Holds.closureReplacementFrom (h : r.Holds w p) (hflat : r.flat) (fuel : Nat)
    (hk : ∃ l, r.Has w (.closure k) l) :
    ∃ l, r.Has w (.closure (p.closureReplacementFrom fuel k)) l := by
  induction fuel generalizing k with
  | zero => exact hk
  | succ fuel ih =>
    unfold closureReplacementFrom
    split
    · rename_i next hnext
      split
      · exact hk
      · obtain ⟨l, hl⟩ := hk
        obtain ⟨closure, hclosure, hrep⟩ := Option.bind_eq_some_iff.mp hnext
        obtain ⟨x, hx, hfits⟩ := h.fits (hl.resolve_left h.bound)
        obtain rfl := Option.some.inj ((outline?_closure hclosure).symm.trans hx)
        exact ih ((hfits.replacement hflat _ (by simp [Closure.outline, hrep])).imp fun _ => .inr)
    · exact hk

theorem Holds.redirect (h : r.Holds w p) (hflat : r.flat) : r.Holds w p.redirect := by
  have hcall (X : Set DefnId) (hX : r.flat → X = Set.univ) (c : Call)
      (hc : c.Within (r.words w X)) : (p.redirectCall c).Within (r.words w X) :=
    ⟨words_of_has (.inl hflat) hX (h.blockReplacementFrom hflat _ (hc.1.imp fun _ => And.left)),
      hc.2⟩
  have htail (X : Set DefnId) (hX : r.flat → X = Set.univ) (t : Tail)
      (ht : t.Within (r.words w X)) : (p.redirectTail t).Within (r.words w X) := by
    cases t with
    | call c => exact Tail.within_call.mpr (hcall X hX c (Tail.within_call.mp ht))
    | closure k args =>
      obtain ⟨hk, hargs⟩ := Tail.within_closure.mp ht
      exact Tail.within_closure.mpr ⟨words_of_has (.inl hflat) hX
        (h.closureReplacementFrom hflat _ (hk.imp fun _ => And.left)), hargs⟩
    | ret _ | enter _ _ | data _ _ | sel _ _ _ | prim _ _ => exact ht
  refine h.mapBodies (f := p.redirectCode) (g := p.redirectTail) (fun X hX code hcode => ?_) htail
    fun t => by cases t <;> rfl
  refine ((hcode.mapTails (htail X hX)).mapTails fun t ht => ?_).mapBranches (hcall X hX)
  cases t with
  | call c => exact Tail.within_call.mpr (hcall X hX c (Tail.within_call.mp ht))
  | ret _ | enter _ _ | data _ _ | closure _ _ | sel _ _ _ | prim _ _ => exact ht

theorem keeps_redirect (hflat : r.flat ∨ r.free) : r.contract.Stays w Pass.redirect := by
  unfold Pass.redirect
  refine .get_bind fun s hs => ?_
  split
  · rename_i d hd
    refine .throw (e := .dangling d) fun hwhole => ?_
    have hholds := hs.holds fun hfree => (r.of_free hfree).2.2.1 hwhole
    rw [(hholds.grounded hwhole).dangling?] at hd
    cases hd
  · refine .modify (C := r.contract) (g := Program.redirect) fun p hp => ?_
    exact ⟨.redirected, hp.mapBodies fun h => h.redirect (hflat.resolve_right h.bound)⟩

end Merging

section Groups

theorem Fits.withReplacement {x : Outline} (h : r.Fits w d l x) {other : Option DefnId}
    (hother : ∀ e, other = some e → ∃ m, w.of e = some m) :
    r.Fits w d l { x with replacement := other } where
  origin := h.origin
  body := h.body
  params := h.params
  derived := h.derived
  replacement _ := hother
  allocates := h.allocates

theorem keeps_merge {ι δ : Type} [DecidableEq ι] {M : Mergeable ι δ} {as : List ι}
    {groups : Groups ι} (hnote : ∀ w a other, (∀ c, other = some c → ∃ m, r.Has w (M.defn c) m) →
      r.contract.Stays w (Pass.edit (M.modify a (M.annotate other))))
    (has : r.Covers w M.defn as) (hgroups : r.Covers w M.defn (groups.map (·.2))) :
    r.contract.Stays w (M.pass as groups) := by
  induction as generalizing w groups with
  | nil =>
    rw [M.pass_nil]
    exact .pure trivial
  | cons a as ih =>
    rw [M.pass_cons]
    refine .bind (.peek _) fun w1 x hle1 _ => .bind .get fun w2 s hle2 _ => ?_
    have has := has.mono (hle1.trans hle2)
    have hgroups := hgroups.mono (hle1.trans hle2)
    dsimp only
    split
    · rename_i other hother
      refine .bind (hnote w2 a _ ?_) fun w3 _ hle3 _ => ?_
      · rintro _ ⟨⟩
        exact hgroups.find hother
      refine .bind (.workOn _) fun w4 _ hle4 _ => .bind (.report _) fun w5 _ hle5 _ => ?_
      have hle := hle3.trans (hle4.trans hle5)
      exact .bind (ih (has.mono hle).tail (hgroups.mono hle)) fun _ _ _ _ => .pure trivial
    · refine .bind (hnote w2 a none (by rintro _ ⟨⟩)) fun w3 _ hle3 _ => ?_
      exact ih (has.mono hle3).tail ((hgroups.mono hle3).append (has.mono hle3))

theorem keeps_mergeBlocks {bs : List BlockId} (hbs : r.Covers w .block bs) :
    r.contract.Stays w (mergeBlocks bs []) := by
  refine keeps_merge (M := .blocks) (fun w b other hother => ?_) hbs fun _ h => nomatch h
  refine keeps_modifyBlock fun hbound l block _ hfits => hfits.withReplacement fun d hd => ?_
  obtain ⟨c, hc, rfl⟩ := Option.map_eq_some_iff.mp hd
  exact (hother c hc).imp fun _ hm => hm.resolve_left hbound

theorem keeps_mergeClosures {ks : List ClosureId} (hks : r.Covers w .closure ks) :
    r.contract.Stays w (mergeClosures ks []) := by
  refine keeps_merge (M := .closures) (fun w k other hother => ?_) hks fun _ h => nomatch h
  refine keeps_modifyClosure fun hbound l closure _ hfits => hfits.withReplacement fun d hd => ?_
  obtain ⟨c, hc, rfl⟩ := Option.map_eq_some_iff.mp hd
  exact (hother c hc).imp fun _ hm => hm.resolve_left hbound

theorem keeps_mergeTops (hflat : r.flat ∨ r.free) {ts : List TopId} {groups : Groups TopId}
    (hts : r.Covers w .top ts) (hgroups : r.Covers w .top (groups.map (·.2))) :
    r.contract.Stays w (mergeTops ts groups) := by
  induction ts generalizing w groups with
  | nil => exact .pure trivial
  | cons t ts ih =>
    unfold mergeTops
    refine .bind (.peek _) fun w1 top hle1 _ => ?_
    have hts := hts.mono hle1
    have hgroups := hgroups.mono hle1
    dsimp only
    split
    · exact ih hts.tail hgroups
    refine .bind .get fun w2 s hle2 _ => ?_
    have hts := hts.mono hle2
    have hgroups := hgroups.mono hle2
    split
    · rename_i other hother
      have halloc : ¬r.allocates t :=
        hflat.elim (r.not_allocates_of_flat · t) fun hfree => (r.of_free hfree).2.2.2 t
      refine .bind (keeps_setTopTail ?_ fun ht => absurd ht halloc) fun w3 _ hle3 _ => ?_
      · -- The reference to the other top-level is new, and allowed as all realms are everything.
        refine Tail.within_ret.mpr fun a ha => ?_
        obtain ⟨i, -, rfl⟩ := mem_map.mp ha
        exact words_of_has hflat (fun hf => r.below_of_flat hf t) (hgroups.find hother)
      refine .bind (.workOn _) fun w4 _ hle4 _ => .bind (.report _) fun w5 _ hle5 _ => ?_
      have hle := hle3.trans (hle4.trans hle5)
      exact ih (hts.mono hle).tail (hgroups.mono hle)
    · exact ih hts.tail (hgroups.append hts)

theorem Stands.covers_retained (h : r.Stands w p) {α : Type} {name : α → DefnId}
    {f : DefnId → Option α} (hf : ∀ d a, f d = some a → d = name a) :
    r.Covers w name (p.defns.filterMap f) := by
  intro a ha
  obtain ⟨d, hd, hda⟩ := mem_filterMap.mp ha
  rw [← hf d a hda]
  exact h.defns d hd

theorem keeps_collapse (hflat : r.flat ∨ r.free) : r.contract.Stays w collapse := by
  have hrest (merged : Bool) (w' : Realms) : r.contract.Stays w' (do
      if merged then redirect
      collapseTops) := by
    have htops (w : Realms) : r.contract.Stays w collapseTops := by
      refine .get_bind fun s hs => .bind (keeps_mergeTops hflat ?_ fun _ h => by cases h)
        fun _ _ _ _ => .workOn _
      exact hs.covers_retained fun d t h => by cases d <;> cases h; rfl
    dsimp only
    split
    · exact .bind (keeps_redirect hflat) fun w1 _ _ _ => htops w1
    · exact htops w'
  unfold collapse collapseBlocks collapseClosures
  simp only [bind_assoc, pure_bind]
  refine .get_bind fun s hs => .bind (keeps_mergeBlocks ?_)
    fun w1 blocks _ _ => .bind (.workOn _) fun w2 _ _ _ => .get_bind fun s hs => ?_
  · exact hs.covers_retained fun d b h => by cases d <;> cases h; rfl
  refine .bind (keeps_mergeClosures ?_) fun w1 closures _ _ =>
    .bind (.workOn _) fun w2 _ _ _ => hrest _ w2
  exact hs.covers_retained fun d k h => by cases d <;> cases h; rfl

end Groups

theorem keepsPasses (hflat : r.options.merging = true → r.flat ∨ r.free) (fuel : Nat) :
    r.contract.KeepsPasses r.options fuel where
  simplifyCases _ := keeps_simplifyCases
  shake _ := keeps_shake
  unusedArgs _ := keeps_unusedArgs
  inlining _ hinlining := keeps_inlining hinlining fuel
  flow _ := keeps_flow fuel
  collapse _ hmerging := keeps_collapse (hflat hmerging)

end Charter

section Start

variable {p : Program} {cs : List Component}

theorem Program.of_complaints_eq_nil (h : p.complaints cs = []) :
    p.roots = p.entrypoints ∧ p.entrypoints ≠ [] ∧ ∀ c ∈ cs, illegalNames? p c = none := by
  simp only [complaints, List.append_eq_nil_iff, List.map_eq_nil_iff, List.filterMap_eq_nil_iff,
    ite_eq_right_iff, List.cons_ne_nil, imp_false, List.isEmpty_iff] at h
  -- One part for each kind of complaint.
  obtain ⟨⟨hdefined, hroots⟩, hlegal⟩ := h
  have hall : p.roots = p.entrypoints :=
    List.filter_eq_self.mpr fun d hd => by simpa using List.filter_eq_nil_iff.mp hdefined d hd
  exact ⟨hall, hall ▸ hroots, hlegal⟩

theorem Pass.sameButNotes_of_shake {s s' : Workbench} {u : Unit} (h : shake s = .ok u s') :
    ∃ cs, ofRoots s.program s.program.roots = .ok cs ∧ s.program.complaints cs = [] ∧
      (s.program.setComponents cs).SameButNotes s'.program := by
  obtain ⟨cs, q, hcs, hnone, hcount, rfl⟩ := shake_eq_ok h
  have hsame := Edit.onlyNotes_countOccurrences (s.program.setComponents cs)
  rw [hcount] at hsame
  exact ⟨cs, hcs, hnone, hsame⟩

/-- Once the first shake has been made, the rest of a run stays within the contract. -/
theorem Charter.Fitting.safe {r : Charter} {w : Realms} {s s' : Workbench} {u : Unit}
    (h : r.Fitting w s.program) (htemps : s.program.temps.size = 0 → r.wildcard)
    (hroots : ∀ d ∈ s.program.roots, ∃ l, w.of d = some l) (hshake : shake s = .ok u s')
    (hflat : r.options.merging = true → r.flat ∨ r.free) (fuel : Nat) :
    r.contract.Safe w (optimiseShaken r.options fuel) (fun _ _ => True) s' := by
  obtain ⟨cs, hcs, hok, hsame⟩ := sameButNotes_of_shake hshake
  obtain ⟨hall, hentry, -⟩ := of_complaints_eq_nil hok
  have hholds := h.retain htemps ⟨hentry, hall ▸ hroots⟩ hall hcs
  exact (keepsPasses hflat fuel).optimiseShaken w s' ((Stands.bound hholds).sameButNotes hsame)

def Charter.flatly (o : Options) (wildcard : Prop) (whole : Prop := False) : Charter where
  options := o
  wildcard := wildcard
  below _ := Set.univ
  allocates _ := False
  flat := True
  whole := whole
  below_of_flat _ _ := rfl
  not_allocates_of_flat _ _ := id
  legal h := absurd trivial h

open Classical in
/-- The realms that the definitions in `D` have to start with. -/
noncomputable def Program.realms (p : Program) (D : Set DefnId) (reach : DefnId → Set DefnId) :
    Realms where
  of d := if d ∈ D then (p.outline? d).map fun x => ⟨reach d, x.origin⟩ else none

theorem Program.of_realms_eq_some {D : Set DefnId} {reach : DefnId → Set DefnId} {d : DefnId}
    {l : Realm} : (p.realms D reach).of d = some l ↔
      d ∈ D ∧ ∃ x, p.outline? d = some x ∧ l = ⟨reach d, x.origin⟩ := by
  simp [realms, eq_comm]

end Start

end MonadicIR
