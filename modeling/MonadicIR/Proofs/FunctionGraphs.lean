import MonadicIR.Proofs.Counting
import MonadicIR.Proofs.GraphEdges

namespace MonadicIR

open Program List

namespace Code

def awaited : Code → List Call
  | bind _ tail rest => tail.call?.toList ++ rest.awaited
  | assert _ _ rest => rest.awaited
  | _ => []

variable {code : Code} {c : Call}

theorem mem_calls_of_endCalls (h : c ∈ code.endCalls) : c ∈ code.calls := by
  induction code with
  | done t => cases t <;> simp_all [endCalls, calls, Tail.call?]
  | bind _ _ rest ih => exact mem_append_right _ (ih h)
  | assert _ _ rest ih => exact ih h
  | branch | switch => exact h

theorem mem_calls_of_awaited (h : c ∈ code.awaited) : c ∈ code.calls := by
  induction code with
  | done | branch | switch => cases h
  | bind _ _ rest ih => exact mem_append.mpr ((mem_append.mp h).imp_right ih)
  | assert _ _ rest ih => exact ih h

theorem mem_references_of_awaited (h : c ∈ code.awaited) :
    (.block c.target, true) ∈ code.references := by
  induction code with
  | done | branch | switch => cases h
  | bind _ t rest ih =>
    refine mem_append.mpr ((mem_append.mp h).imp (fun hc => ?_) ih)
    cases t <;> simp_all [Tail.call?, Tail.references]
  | assert _ _ rest ih => exact mem_append_right _ (ih h)

end Code

namespace Program

variable {p : Program} {d : DefnId}

def callsIn (p : Program) : DefnId → Except Fault (List Call)
  | .block b => (p.block b).map fun block => block.code.calls
  | .closure k => (p.closure k).map fun closure => closure.tail.call?.toList
  | .top t => (p.top t).map fun top => top.tail.call?.toList

/-- Every block that is called is part of the program, and gets as many arguments as it expects. -/
def Linked (p : Program) : Prop :=
  ∀ d ∈ p.defns, ∃ cs, p.callsIn d = .ok cs ∧
    ∀ c ∈ cs, .block c.target ∈ p.defns ∧ p.checkShape (.call c) = .ok ()

theorem Linked.defines (h : p.Linked) (hd : d ∈ p.defns) : p.defines d = true := by
  obtain ⟨cs, hcs, -⟩ := h d hd
  cases d <;>
    simp only [callsIn, map_eq_ok_iff, block_eq_ok_iff, closure_eq_ok_iff, top_eq_ok_iff] at hcs <;>
    obtain ⟨x, hx, -⟩ := hcs
  · exact defines_block_iff.mpr ⟨x, hx⟩
  · exact defines_closure_iff.mpr ⟨x, hx⟩
  · exact defines_top_iff.mpr ⟨x, hx⟩

theorem Linked.block (h : p.Linked) {b : BlockId} (hb : .block b ∈ p.defns) :
    ∃ block, p.block b = .ok block ∧
      ∀ c ∈ block.code.calls, .block c.target ∈ p.defns ∧ p.checkShape (.call c) = .ok () := by
  obtain ⟨cs, hcs, hall⟩ := h _ hb
  obtain ⟨block, hblock, rfl⟩ := map_eq_ok_iff.mp hcs
  exact ⟨block, hblock, hall⟩

theorem checkTail_of_calls {code : Code} {bound : List Temp} (h : p.checkCode d code bound = .ok ())
    {c : Call} (hc : c ∈ code.calls) : p.checkTail d (.call c) = .ok () := by
  have htail {t : Tail} (ht : p.checkTail d t = .ok ()) (hc : c ∈ t.call?.toList) :
      p.checkTail d (.call c) = .ok () := by
    cases t <;> simp_all [Tail.call?]
  induction code generalizing bound with
  | done t => exact htail h hc
  | bind vars t rest ih =>
    obtain ⟨ht, -, -, -, hrest⟩ := checkCode_bind.mp h
    exact (mem_append.mp hc).elim (htail ht) (ih hrest)
  | assert a ctor rest ih => exact ih (checkCode_assert.mp h).2.2 hc
  | branch test yes no => exact (checkCode_branch.mp h).2 c hc
  | switch a alts => exact (checkCode_switch.mp h).2.1 c hc

theorem Current.mem_defns_of_callee (h : p.Current) {e : DefnId} {cs : List DefnId}
    (hd : d ∈ p.defns)
    (hcs : p.callees d = .ok cs) (he : e ∈ cs) (hdefined : p.defines e = true) : e ∈ p.defns := by
  unfold defns at hd ⊢
  split at hd
  · rename_i hnone
    rw [if_pos hnone]
    exact mem_allDefns.mpr hdefined
  · rename_i hsome
    rw [if_neg hsome]
    exact h.retained_callee hd hcs he

theorem Current.mem_defns_of_root (h : p.Current) (hd : d ∈ p.entrypoints)
    (hdefined : p.defines d = true) : d ∈ p.defns := by
  unfold defns
  split
  · exact mem_allDefns.mpr hdefined
  · exact h.retained_root hd hdefined

theorem nodup_allDefns (p : Program) : p.allDefns.Nodup := by
  have hids {α : Type} {f : Nat → α} (hf : Function.Injective f) (n : Nat) :
      ((range n).map f).Nodup := nodup_range.map hf
  simp only [allDefns, blockIds, closureIds, topIds, map_map, nodup_append]
  refine ⟨⟨hids ?_ _, hids ?_ _, by simp⟩, hids ?_ _, by grind⟩ <;> intro i j hij <;>
    simpa using hij

theorem Current.nodup_defns (h : p.Current) : p.defns.Nodup := by
  unfold defns
  split
  · exact p.nodup_allDefns
  · exact h.nodup

theorem linked_of_check (hcheck : p.check = .ok ()) (hcurrent : p.Current) : p.Linked := by
  intro d hd
  have hcheckd := checkAll_eq_ok_iff.mp hcheck d hd
  have hstays {cs : List DefnId} (hcs : p.callees d = .ok cs) {c : Call} (hc : .block c.target ∈ cs)
      (htail : p.checkTail d (.call c) = .ok ()) :
      .block c.target ∈ p.defns ∧ p.checkShape (.call c) = .ok () := by
    have hshape := (checkTail_eq_ok_iff.mp htail).2
    obtain ⟨block, hblock, -⟩ := checkShape_call.mp hshape
    exact ⟨hcurrent.mem_defns_of_callee hd hcs hc (defines_block_iff.mpr ⟨block, hblock⟩), hshape⟩
  have htail {t : Tail} (ht : p.checkTail d t = .ok ()) (hcs : p.callees d = .ok (distinct t.refs))
      (c : Call) (hc : c ∈ t.call?.toList) :
      .block c.target ∈ p.defns ∧ p.checkShape (.call c) = .ok () := by
    obtain rfl : t = .call c := by cases t <;> simp_all [Tail.call?]
    exact hstays hcs (mem_distinct.mpr (Tail.mem_refs_call.mpr (.inl rfl))) ht
  cases d with
  | block b =>
    obtain ⟨block, hblock, -, hcode⟩ := checkDefn_block.mp hcheckd
    rw [← block_eq_ok_iff] at hblock
    refine ⟨_, map_eq_ok_iff.mpr ⟨block, hblock, rfl⟩, fun c hc => ?_⟩
    exact hstays (map_eq_ok_iff.mpr ⟨block, hblock, rfl⟩)
      (mem_distinct.mpr (Code.mem_refs.mpr (.inr (.inl ⟨c, hc, rfl⟩))))
        (checkTail_of_calls hcode hc)
  | closure k =>
    obtain ⟨closure, hclosure, -, ht⟩ := checkDefn_closure.mp hcheckd
    rw [← closure_eq_ok_iff] at hclosure
    exact ⟨_, map_eq_ok_iff.mpr ⟨closure, hclosure, rfl⟩,
      htail ht (map_eq_ok_iff.mpr ⟨closure, hclosure, rfl⟩)⟩
  | top t =>
    obtain ⟨top, htop, ht, -⟩ := checkDefn_top.mp hcheckd
    rw [← top_eq_ok_iff] at htop
    exact ⟨_, map_eq_ok_iff.mpr ⟨top, htop, rfl⟩, htail ht (map_eq_ok_iff.mpr ⟨top, htop, rfl⟩)⟩

end Program

namespace FlowGraph

variable {p : Program} {small : Nat} {src : DefnId} {b : BlockId} {included x y z : List BlockId}

theorem exists_staysOut (hlinked : p.Linked) (hsrc : src ∈ p.defns) (hb : .block b ∈ p.defns) :
    ∃ out, staysOut p small src b = .ok out := by
  obtain ⟨block, hblock, -⟩ := hlinked.block hb
  obtain ⟨notes, hnotes⟩ := Program.exists_notes_iff.mpr (hlinked.defines hsrc)
  have hsmall : ∃ fits, isSmall p small b = .ok fits := by
    rw [isSmall, Program.isRecursive, Program.notes, hblock]
    dsimp only [Except.map, bind, Except.bind]
    split
    · split <;> exact ⟨_, rfl⟩
    · exact ⟨_, rfl⟩
  obtain ⟨fits, hfits⟩ := hsmall
  rw [staysOut, Program.inOtherComponent, hblock, hnotes, hfits]
  dsimp only [bind, Except.bind, pure, Except.pure]
  split
  · split <;> exact ⟨_, rfl⟩
  · exact ⟨_, rfl⟩

theorem calls_of_staysOut (h : staysOut p small src b = .ok true) :
    ∃ block, p.block b = .ok block ∧ 0 < block.notes.calls := by
  obtain ⟨block, hblock, h⟩ := bind_eq_ok_iff.mp h
  obtain ⟨other, -, h⟩ := bind_eq_ok_iff.mp h
  refine ⟨block, hblock, Nat.pos_of_ne_zero fun hzero => ?_⟩
  cases other <;> simp [hzero, pure, Except.pure] at h

/-- Is the block, which the definition jumps to, included, or does it stay out? -/
def Answered (p : Program) (small : Nat) (included : List BlockId) (src : DefnId) (b : BlockId) :
    Prop :=
  b ∈ included ∨ staysOut p small src b = .ok true

/-- Blocks of the program have been added, and each of them jumps to blocks that are there or stay
out. -/
structure Expands (p : Program) (small : Nat) (x y : List BlockId) : Prop where
  subset : x ⊆ y
  added : ∀ b ∈ y, b ∉ x → .block b ∈ p.defns ∧ ∀ block, p.block b = .ok block →
    ∀ c ∈ block.code.endCalls, Answered p small y (.block b) c.target

namespace Expands

theorem refl (x : List BlockId) : Expands p small x x := ⟨fun _ => id, fun _ hb hnew =>
    absurd hb hnew⟩

theorem trans (h : Expands p small x y) (h' : Expands p small y z) : Expands p small x z := by
  refine ⟨List.Subset.trans h.subset h'.subset, fun b hb hnew => ?_⟩
  by_cases hmem : b ∈ y
  · obtain ⟨hdefn, hjumps⟩ := h.added b hmem hnew
    exact ⟨hdefn, fun block hblock c hc => (hjumps block hblock c hc).imp_left (@h'.subset _)⟩
  · exact h'.added b hb hmem

theorem of_append (h : Expands p small (x ++ [b]) y) (hb : .block b ∈ p.defns)
    (hjumps : ∀ block, p.block b = .ok block →
      ∀ c ∈ block.code.endCalls, Answered p small y (.block b) c.target) : Expands p small x y := by
  refine ⟨List.Subset.trans (subset_append_left _ _) h.subset, fun b' hb' hnew => ?_⟩
  obtain rfl | hne := eq_or_ne b' b
  · exact ⟨hb, hjumps⟩
  · exact h.added b' hb' (by simp [hnew, hne])

theorem foldlM {α : Type} {f : List BlockId → α → Except Fault (List BlockId)} {items : List α}
    {source : α → DefnId} {target : α → BlockId}
    (hstep : ∀ a ∈ items, ∀ x, included ⊆ x → ∃ y, f x a = .ok y ∧ Expands p small x y ∧
      Answered p small y (source a) (target a)) :
    ∃ y, items.foldlM f included = .ok y ∧ Expands p small included y ∧
      ∀ a ∈ items, Answered p small y (source a) (target a) := by
  induction items generalizing included with
  | nil => exact ⟨included, rfl, refl included, by simp⟩
  | cons a items ih =>
    obtain ⟨x, hx, hexpands, hanswered⟩ := hstep a (.head ..) included fun _ => id
    obtain ⟨y, hy, hexpands', hanswered'⟩ := ih fun a ha x' hsub =>
      hstep a (.tail _ ha) x' (List.Subset.trans hexpands.subset hsub)
    rw [foldlM_cons]
    refine ⟨y, bind_eq_ok_iff.mpr ⟨x, hx, hy⟩, hexpands.trans hexpands', ?_⟩
    exact forall_mem_cons.mpr ⟨hanswered.imp_left (@hexpands'.subset _), hanswered'⟩

end Expands

def left (p : Program) (included : List BlockId) : List BlockId :=
  p.blockIds.filter fun b => b ∉ included

theorem left_length_le (hsub : x ⊆ y) : (left p y).length ≤ (left p x).length := by
  refine (monotone_filter_right _ fun b hb => ?_).length_le
  simp only [decide_eq_true_eq] at hb ⊢
  exact fun hx => hb (hsub hx)

theorem left_length_lt {block : Block} (hb : p.block b = .ok block) (hnew : b ∉ included) :
    (left p (included ++ [b])).length < (left p included).length := by
  have hmem : b ∈ p.blockIds := by
    rw [block_eq_ok_iff] at hb
    exact mem_map.mpr ⟨b.index, mem_range.mpr (Array.getElem?_eq_some_iff.mp hb).1, rfl⟩
  have hsub : left p (included ++ [b]) = (left p included).filter fun b' => b' ≠ b := by
    simp only [left, filter_filter]
    refine filter_congr fun b' _ => ?_
    simp [and_comm]
  rw [hsub, length_filter_lt_length_iff_exists]
  exact ⟨b, by simpa [left] using ⟨hmem, hnew⟩, by simp⟩

/-- With fuel for all the blocks that can be added, all that a block leads to is added. -/
theorem exists_includeBlock (hlinked : p.Linked) {fuel : Nat}
    (hleft : (left p included).length < fuel) (hsrc : src ∈ p.defns) (hb : .block b ∈ p.defns) :
    ∃ y, includeBlock p small fuel src included b = .ok y ∧ Expands p small included y ∧
      Answered p small y src b := by
  induction fuel generalizing src included b with
  | zero => omega
  | succ fuel ih =>
    rw [includeBlock]
    split
    · rename_i hmem
      exact ⟨included, rfl, .refl included, .inl (contains_iff_mem.mp hmem)⟩
    · rename_i hnew
      rw [contains_iff_mem] at hnew
      obtain ⟨out, hout⟩ : ∃ out, staysOut p small src b = .ok out :=
        exists_staysOut hlinked hsrc hb
      rw [hout]
      cases out with
      | true => exact ⟨included, rfl, .refl included, .inr hout⟩
      | false =>
        obtain ⟨block, hblock, hcalls⟩ := hlinked.block hb
        -- Each jump is followed with less fuel, and with fewer blocks left.
        have hlt := left_length_lt hblock hnew
        obtain ⟨y, hy, hexpands, hjumps⟩ : ∃ y, block.code.endCalls.foldlM
            (fun x c => includeBlock p small fuel (.block b) x c.target) (included ++ [b]) = .ok y ∧
            Expands p small (included ++ [b]) y ∧
            ∀ c ∈ block.code.endCalls, Answered p small y (.block b) c.target := by
          refine Expands.foldlM fun c hc x hsub =>
            ih ?_ hb (hcalls c (Code.mem_calls_of_endCalls hc)).1
          have := left_length_le (p := p) hsub
          omega
        refine ⟨y, ?_, hexpands.of_append hb ?_, .inl (hexpands.subset (by simp))⟩
        · rw [hblock]
          exact hy
        · intro block' hblock'
          obtain rfl := Except.ok.inj (hblock.symm.trans hblock')
          exact hjumps

theorem exists_includeCall (hlinked : p.Linked) (hsrc : src ∈ p.defns) {c : Call}
    (hc : .block c.target ∈ p.defns) :
    ∃ y, includeCall p small src included c = .ok y ∧ Expands p small included y ∧
      Answered p small y src c.target := by
  refine exists_includeBlock hlinked (Nat.lt_succ_of_le ?_) hsrc hc
  exact (length_filter_le ..).trans (by simp [blockIds])

/-- What each kind of graph starts with. -/
inductive Starts (p : Program) (functions : List (BlockId × List Temp)) : Kind → List Call → Prop
  | block {b : BlockId} {params : List Temp} : .block b ∈ p.defns → (b, params) ∈ functions →
      Starts p functions (.block b params (p.isEntrypoint (.block b))) [⟨b, params.map .temp⟩]
  | closure {k : ClosureId} {calls : List Call} : .closure k ∈ p.defns →
      p.callsIn (.closure k) = .ok calls → Starts p functions (.closure k) calls
  | init {calls : List Call} : (∀ c ∈ calls, ∃ t cs, .top t ∈ p.defns ∧
      p.callsIn (.top t) = .ok cs ∧ c ∈ cs) → Starts p functions .init calls

/-- A graph that was built as it should be. -/
structure Drawn (p : Program) (small : Nat) (functions : List (BlockId × List Temp)) (next : Nat)
    (g : FlowGraph) (next' : Nat) : Prop where
  calls : ∃ calls, Starts p functions g.kind calls ∧
    (∀ c ∈ calls, .block c.target ∈ p.defns ∧ ∃ src, Answered p small g.included src c.target) ∧
    graph p g.kind g.included calls next = .ok (g, next')
  shape : g.WellFormed
  expands : Expands p small [] g.included

variable {functions : List (BlockId × List Temp)} {next next' : Nat} {g : FlowGraph}

theorem Expands.blocks (h : Expands p small [] included) (hlinked : p.Linked) (hb : b ∈ included) :
    ∃ block, p.block b = .ok block ∧
      (∀ c ∈ block.code.calls, .block c.target ∈ p.defns ∧ p.checkShape (.call c) = .ok ()) ∧
      ∀ c ∈ block.code.endCalls, Answered p small included (.block b) c.target := by
  obtain ⟨hdefn, hjumps⟩ := h.added b hb (by simp)
  obtain ⟨block, hblock, hcalls⟩ := hlinked.block hdefn
  exact ⟨block, hblock, hcalls, hjumps block hblock⟩

theorem Expands.exists_graph (h : Expands p small [] included) (hlinked : p.Linked) {kind : Kind}
    {calls : List Call} (hstarts : Starts p functions kind calls)
    (hcalls : ∀ c ∈ calls, (.block c.target ∈ p.defns ∧ p.checkShape (.call c) = .ok ()) ∧
      ∃ src, Answered p small included src c.target) :
    ∃ g next', graph p kind included calls next = .ok (g, next') ∧ g.kind = kind ∧
      (g.WellFormed → Drawn p small functions next g next') := by
  obtain ⟨g, next', hg⟩ : ∃ g next', graph p kind included calls next = .ok (g, next') := by
    refine FlowGraph.exists_graph (fun b hb => ?_) fun c hc => (hcalls c hc).1.2
    obtain ⟨block, hblock, hinside, -⟩ := h.blocks hlinked hb
    exact ⟨block, hblock, fun c hc => (hinside c (Code.mem_calls_of_endCalls hc)).2⟩
  obtain ⟨-, -, -, -, -, -, -, rfl, rfl, -⟩ := graph_eq_ok hg
  exact ⟨g, next', hg, rfl, fun hshape =>
    ⟨⟨calls, hstarts, fun c hc => ⟨(hcalls c hc).1.1, (hcalls c hc).2⟩, hg⟩, hshape, h⟩⟩

theorem exists_blockGraph (hlinked : p.Linked) {params : List Temp} (hb : .block b ∈ p.defns)
    (hmem : (b, params) ∈ functions)
    (hparams : ∀ block, p.block b = .ok block → params.length = block.params.length) :
    ∃ g next', blockGraph p small b params next = .ok (g, next') ∧
      Drawn p small functions next g next' ∧
      g.kind = .block b params (p.isEntrypoint (.block b)) := by
  obtain ⟨block, hblock, hcalls⟩ := hlinked.block hb
  obtain ⟨included, hincluded, hexpands, hjumps⟩ : ∃ y, block.code.endCalls.foldlM
      (includeCall p small (.block b)) [b] = .ok y ∧ Expands p small [b] y ∧
      ∀ c ∈ block.code.endCalls, Answered p small y (.block b) c.target :=
    Expands.foldlM fun c hc x _ =>
      exists_includeCall hlinked hb (hcalls c (Code.mem_calls_of_endCalls hc)).1
  have hregion : Expands p small [] included := by
    refine Expands.of_append hexpands hb fun block' hblock' => ?_
    obtain rfl := Except.ok.inj (hblock.symm.trans hblock')
    exact hjumps
  have hshape : p.checkShape (.call ⟨b, params.map .temp⟩) = .ok () :=
    checkShape_call.mpr ⟨block, block_eq_ok_iff.mp hblock, by simp [hparams block hblock]⟩
  obtain ⟨g, next', hg, hkind, hdrawn⟩ := hregion.exists_graph hlinked (.block hb hmem)
    (forall_mem_singleton.mpr ⟨⟨hb, hshape⟩, .block b, .inl (hexpands.subset (by simp))⟩)
  have hrun : blockGraph p small b params next = .ok (g, next') :=
    bind_eq_ok_iff.mpr ⟨block, hblock, bind_eq_ok_iff.mpr ⟨included, hincluded, hg⟩⟩
  exact ⟨g, next', hrun, hdrawn (blockGraph_wellFormed hrun), hkind⟩

theorem exists_closureGraph (hlinked : p.Linked) {k : ClosureId} (hk : .closure k ∈ p.defns) :
    ∃ g next', closureGraph p small k next = .ok (g, next') ∧ Drawn p small functions next g next' ∧
      g.kind = .closure k := by
  obtain ⟨calls, hin, hcalls⟩ := hlinked _ hk
  obtain ⟨closure, hclosure, rfl⟩ := map_eq_ok_iff.mp hin
  obtain ⟨included, hincluded, hexpands, hjumps⟩ : ∃ y, closure.tail.call?.toList.foldlM
      (includeCall p small (.closure k)) [] = .ok y ∧ Expands p small [] y ∧
      ∀ c ∈ closure.tail.call?.toList, Answered p small y (.closure k) c.target :=
    Expands.foldlM fun c hc x _ => exists_includeCall hlinked hk (hcalls c hc).1
  obtain ⟨g, next', hg, hkind, hdrawn⟩ := hexpands.exists_graph hlinked (.closure hk hin)
    fun c hc => ⟨hcalls c hc, _, hjumps c hc⟩
  have hrun : closureGraph p small k next = .ok (g, next') :=
    bind_eq_ok_iff.mpr ⟨closure, hclosure, bind_eq_ok_iff.mpr ⟨included, hincluded, hg⟩⟩
  exact ⟨g, next', hrun, hdrawn (closureGraph_wellFormed hrun), hkind⟩

theorem exists_topCalls (hlinked : p.Linked) {ds : List DefnId} (hds : ds ⊆ p.defns) :
    ∃ calls, topCalls p ds = .ok calls ∧ ∀ x ∈ calls, .top x.1 ∈ p.defns ∧
      ∃ cs, p.callsIn (.top x.1) = .ok cs ∧ x.2 ∈ cs := by
  induction ds with
  | nil => exact ⟨[], rfl, by simp⟩
  | cons d ds ih =>
    obtain ⟨hd, hds⟩ := cons_subset.mp hds
    obtain ⟨calls, hcalls, hall⟩ := ih hds
    cases d with
    | block | closure => exact ⟨calls, hcalls, hall⟩
    | top t =>
      obtain ⟨cs, hin, -⟩ := hlinked _ hd
      obtain ⟨top, htop, rfl⟩ := map_eq_ok_iff.mp hin
      refine ⟨_, bind_eq_ok_iff.mpr ⟨top, htop, bind_eq_ok_iff.mpr ⟨calls, hcalls, rfl⟩⟩, ?_⟩
      refine forall_mem_append.mpr ⟨forall_mem_map.mpr fun c hc => ?_, hall⟩
      exact ⟨hd, _, hin, hc⟩

theorem exists_initGraph (hlinked : p.Linked) {calls : List (TopId × Call)}
    (hcalls : ∀ x ∈ calls, .top x.1 ∈ p.defns ∧ ∃ cs, p.callsIn (.top x.1) = .ok cs ∧ x.2 ∈ cs) :
    ∃ g next', initGraph p small calls next = .ok (g, next') ∧
      Drawn p small functions next g next' ∧ g.kind = .init := by
  have hlinks (x : TopId × Call) (hx : x ∈ calls) :
      .block x.2.target ∈ p.defns ∧ p.checkShape (.call x.2) = .ok () := by
    obtain ⟨ht, cs, hin, hmem⟩ := hcalls x hx
    obtain ⟨cs', hin', hall⟩ := hlinked _ ht
    obtain rfl := Except.ok.inj (hin.symm.trans hin')
    exact hall x.2 hmem
  obtain ⟨included, hincluded, hexpands, hjumps⟩ : ∃ y, calls.foldlM
      (fun included (x : TopId × Call) => includeCall p small (.top x.1) included x.2) [] = .ok y ∧
      Expands p small [] y ∧ ∀ x ∈ calls, Answered p small y (.top x.1) x.2.target :=
    Expands.foldlM fun x hx _ _ => exists_includeCall hlinked (hcalls x hx).1 (hlinks x hx).1
  have hstarts : Starts p functions .init (calls.map (·.2)) :=
    .init (forall_mem_map.mpr fun x hx => by
      obtain ⟨ht, cs, hin, hmem⟩ := hcalls x hx
      exact ⟨x.1, cs, ht, hin, hmem⟩)
  obtain ⟨g, next', hg, hkind, hdrawn⟩ := hexpands.exists_graph hlinked hstarts
    (forall_mem_map.mpr fun x hx => ⟨hlinks x hx, _, hjumps x hx⟩)
  have hrun : initGraph p small calls next = .ok (g, next') :=
    bind_eq_ok_iff.mpr ⟨included, hincluded, hg⟩
  exact ⟨g, next', hrun, hdrawn (initGraph_wellFormed hrun), hkind⟩

theorem Drawn.call (h : Drawn p small functions next g next') (hlinked : p.Linked) {l : Label}
    (hl : l ∈ g.labels) {c : Call} (hkind : l.kind = .call c) :
    .block c.target ∈ p.defns ∧ ∃ block, p.block c.target = .ok block ∧ 0 < block.notes.calls := by
  obtain ⟨calls, -, hcalls, hrun⟩ := h.calls
  have ht := graph_traced hrun
  obtain ⟨i, hi⟩ := Array.mem_iff_getElem?.mp hl
  obtain ⟨-, -, -, ⟨c', hleaves, htakes, -⟩, -⟩ := ht.preds hi
  rw [hkind] at htakes
  obtain rfl : c = c' := htakes
  have hout : c.target ∉ g.included := (h.shape.call l hl c hkind).2.2
  obtain hstart | ⟨j, l', b, block, -, hl', hkind', hblock, hc⟩ := hleaves
  · obtain ⟨hdefn, src, hanswered⟩ := hcalls c hstart
    exact ⟨hdefn, calls_of_staysOut (hanswered.resolve_left hout)⟩
  · obtain ⟨block', hblock', hinside, hjumps⟩ := h.expands.blocks hlinked (ht.code hl' hkind')
    obtain rfl := Except.ok.inj (hblock.symm.trans hblock')
    exact ⟨(hinside c (Code.mem_calls_of_endCalls hc)).1,
      calls_of_staysOut ((hjumps c hc).resolve_left hout)⟩

/-- Is this the graph of the block, as a function of its own? -/
def draws (g : FlowGraph) (b : BlockId) : Bool :=
  match g.kind with
  | .block b' _ _ => b' == b
  | _ => false

/-- The graphs of some definitions: one for each block that is a function, and numbers in order. -/
structure AllDrawn (p : Program) (small : Nat) (functions : List (BlockId × List Temp))
    (ds : List DefnId) (next : Nat) (gs : List FlowGraph) (next' : Nat) : Prop where
  drawn : ∀ g ∈ gs, ∃ m m', Drawn p small functions m g m'
  numbers : ∃ n, next' = next + n ∧ gs.flatMap numbers = List.range' next n
  count : ∀ b, gs.countP (·.draws b) = if b ∈ functions.map Prod.fst then ds.count (.block b) else 0

section

variable {ds ds' : List DefnId} {gs gs' : List FlowGraph} {m : Nat}

theorem AllDrawn.append (h : AllDrawn p small functions ds next gs m)
    (h' : AllDrawn p small functions ds' m gs' next') :
    AllDrawn p small functions (ds ++ ds') next (gs ++ gs') next' := by
  refine ⟨forall_mem_append.mpr ⟨h.drawn, h'.drawn⟩, ?_, fun b => ?_⟩
  · obtain ⟨n, rfl, hnumbers⟩ := h.numbers
    obtain ⟨n', rfl, hnumbers'⟩ := h'.numbers
    refine ⟨n + n', Nat.add_assoc .., ?_⟩
    rw [flatMap_append, hnumbers, hnumbers', range'_append_1]
  · rw [countP_append, h.count b, h'.count b, count_append]
    split <;> rfl

theorem AllDrawn.none (hcount : ∀ b ∈ functions.map Prod.fst, ds.count (.block b) = 0) :
    AllDrawn p small functions ds next [] next :=
  ⟨by simp, ⟨0, rfl, rfl⟩, fun b => by simpa [eq_comm] using hcount b⟩

theorem Drawn.all (h : Drawn p small functions next g next')
    (hcount : ∀ b, [g].countP (·.draws b) =
      if b ∈ functions.map Prod.fst then ds.count (.block b) else 0) :
    AllDrawn p small functions ds next [g] next' := by
  obtain ⟨_, -, -, hrun⟩ := h.calls
  refine ⟨forall_mem_singleton.mpr ⟨_, _, h⟩, ?_, hcount⟩
  simpa using graph_numbers hrun

theorem exists_graphs (hlinked : p.Linked)
    (hfunctions : ∀ f ∈ functions, ∀ block, p.block f.1 = .ok block →
      f.2.length = block.params.length)
    (hds : ds ⊆ p.defns) (next : Nat) :
    ∃ gs next', graphs p small functions ds next = .ok (gs, next') ∧
      AllDrawn p small functions ds next gs next' := by
  induction ds generalizing next with
  | nil => exact ⟨[], next, rfl, .none (by simp)⟩
  | cons d ds ih =>
    obtain ⟨hd, hds⟩ := cons_subset.mp hds
    have hmake {make : Except Fault (FlowGraph × Nat)} {g : FlowGraph} {m : Nat}
      (hg : make = .ok (g, m))
        (hall : AllDrawn p small functions [d] next [g] m) :
        ∃ gs next', (make >>= fun r => graphs p small functions ds r.2 >>= fun rs =>
          (pure (r.1 :: rs.1, rs.2) : Except Fault _)) = .ok (gs, next') ∧
          AllDrawn p small functions (d :: ds) next gs next' := by
      obtain ⟨gs, next', hgs, hrest⟩ := ih hds m
      exact ⟨g :: gs, next', bind_eq_ok_iff.mpr ⟨_, hg, bind_eq_ok_iff.mpr ⟨_, hgs, rfl⟩⟩,
        hall.append hrest⟩
    have hskip (hall : AllDrawn p small functions [d] next [] next) :
        ∃ gs next', graphs p small functions ds next = .ok (gs, next') ∧
          AllDrawn p small functions (d :: ds) next gs next' := by
      obtain ⟨gs, next', hgs, hrest⟩ := ih hds next
      exact ⟨gs, next', hgs, hall.append hrest⟩
    unfold graphs
    cases d with
    | block b =>
      dsimp only
      split
      · rename_i b' params hfind
        obtain rfl : b' = b := by simpa using List.find?_some hfind
        have hmem := mem_of_find?_eq_some hfind
        obtain ⟨g, m, hg, hdrawn, hkind⟩ : ∃ g m, blockGraph p small b' params next = .ok (g, m) ∧
            Drawn p small functions next g m ∧ g.kind = _ :=
          exists_blockGraph hlinked hd hmem (hfunctions _ hmem)
        rw [bind_map_left]
        refine hmake hg (hdrawn.all fun b => ?_)
        have hfunction := mem_map_of_mem (f := Prod.fst) hmem
        by_cases hb : b' = b
        · subst hb
          simp [draws, hkind, hfunction]
        · simp [draws, hkind, hb]
      · rename_i hnone
        refine hskip (.none fun b' hb' => count_eq_zero.mpr fun hmem => ?_)
        obtain rfl : b' = b := by simpa using hmem
        obtain ⟨f, hf, rfl⟩ := mem_map.mp hb'
        exact absurd (List.find?_eq_none.mp hnone f hf) (by simp)
    | closure k =>
      obtain ⟨g, m, hg, hdrawn, hkind⟩ : ∃ g m, closureGraph p small k next = .ok (g, m) ∧
          Drawn p small functions next g m ∧ g.kind = _ := exists_closureGraph hlinked hd
      dsimp only
      rw [bind_map_left]
      exact hmake hg (hdrawn.all fun b => by simp [draws, hkind])
    | top t => exact hskip (.none fun b _ => by simp)

/-- All graphs can be built, and with them the one that computes the top-level values. -/
theorem exists_allGraphs (hlinked : p.Linked)
    (hfunctions : ∀ f ∈ functions, ∀ block, p.block f.1 = .ok block →
      f.2.length = block.params.length) :
    ∃ gs next', allGraphs p small functions = .ok gs ∧
      AllDrawn p small functions p.defns 0 gs next' := by
  obtain ⟨gs, next, hgs, hall⟩ : ∃ gs next, graphs p small functions p.defns 0 = .ok (gs, next) ∧
      AllDrawn p small functions p.defns 0 gs next := exists_graphs hlinked hfunctions (fun _ =>
        id) 0
  obtain ⟨calls, hcalls, htops⟩ := exists_topCalls hlinked (List.Subset.refl p.defns)
  rw [allGraphs, hgs, hcalls]
  dsimp only [bind, Except.bind]
  split
  · exact ⟨gs, next, rfl, hall⟩
  · obtain ⟨g, next', hg, hdrawn, hkind⟩ : ∃ g next',
      initGraph p small calls next = .ok (g, next') ∧
        Drawn p small functions next g next' ∧ g.kind = .init := exists_initGraph hlinked htops
    have hlast : AllDrawn p small functions [] next [g] next' :=
      hdrawn.all fun b => by simp [draws, hkind]
    rw [hg]
    exact ⟨_, next', rfl, by simpa using hall.append hlast⟩

end

/-- Every function that is called, waited for or an entrypoint has a graph, no block has two of
them, and no number is given out twice. -/
structure Complete (p : Program) (gs : List FlowGraph) : Prop where
  once : ∀ b, gs.countP (·.draws b) ≤ 1
  called : ∀ g ∈ gs, ∀ l ∈ g.labels, ∀ c, l.kind = .call c → gs.countP (·.draws c.target) = 1
  awaited : ∀ g ∈ gs, ∀ b ∈ g.included, ∃ block, p.block b = .ok block ∧
    ∀ c ∈ block.code.awaited, gs.countP (·.draws c.target) = 1
  entry : ∀ b, .block b ∈ p.entrypoints → gs.countP (·.draws b) = 1
  numbers : (gs.flatMap numbers).Nodup

end FlowGraph

namespace Program

variable {p : Program} {b : BlockId}

def IsFunction (p : Program) (b : BlockId) : Prop :=
  ∃ block, p.block b = .ok block ∧ (0 < block.notes.calls ∨ block.notes.entrypoint = true)

theorem UpToDate.isFunction_of_awaited (h : p.UpToDate) (hlinked : p.Linked)
    (hb : .block b ∈ p.defns)
    {block : Block} (hblock : p.block b = .ok block) {c : Call} (hc : c ∈ block.code.awaited) :
    .block c.target ∈ p.defns ∧ p.IsFunction c.target := by
  obtain ⟨block', hblock', hcalls⟩ := hlinked.block hb
  obtain rfl := Except.ok.inj (hblock.symm.trans hblock')
  obtain ⟨hdefn, -⟩ := hcalls c (Code.mem_calls_of_awaited hc)
  obtain ⟨target, htarget, -⟩ := hlinked.block hdefn
  refine ⟨hdefn, target, htarget, .inl ?_⟩
  exact h.calls_pos hb (map_eq_ok_iff.mpr ⟨block, hblock, rfl⟩) (Code.mem_references_of_awaited hc)
    (map_eq_ok_iff.mpr ⟨target, htarget, rfl⟩)

theorem UpToDate.isFunction_of_entrypoint (h : p.UpToDate) (hb : .block b ∈ p.entrypoints)
    (hdefines : p.defines (.block b) = true) : .block b ∈ p.defns ∧ p.IsFunction b := by
  obtain ⟨block, hblock⟩ := defines_block_iff.mp hdefines
  rw [← block_eq_ok_iff] at hblock
  have hnotes : p.notes (.block b) = .ok block.notes := map_eq_ok_iff.mpr ⟨block, hblock, rfl⟩
  refine ⟨h.current.mem_defns_of_root hb hdefines, block, hblock, .inr ?_⟩
  rw [h.entrypoint hnotes]
  exact contains_iff_mem.mpr hb

end Program

namespace Edit

variable {p : Program} {small : Nat}

theorem exists_functionParams {ds : List DefnId}
    (hds : ∀ b, .block b ∈ ds → ∃ block, p.block b = .ok block) :
    ∃ functions m, functionParams ds p = .ok functions { p with temps := m } ∧
      (∀ b, b ∈ functions.map Prod.fst ↔ .block b ∈ ds ∧ p.IsFunction b) ∧
      ∀ f ∈ functions, ∃ block n n', p.block f.1 = .ok block ∧ p.temps.size ≤ n ∧
        Fresh n block.params f.2 n' := by
  induction ds generalizing p with
  | nil => exact ⟨[], p.temps, rfl, by simp, by simp⟩
  | cons d ds ih =>
    have hrest (b : BlockId) (hb : .block b ∈ ds) := hds b (.tail _ hb)
    cases d with
    | block b =>
      obtain ⟨block, hblock⟩ := hds b (.head ..)
      have hread : read (·.block b) p = .ok block p := read_eq_ok_iff.mpr ⟨hblock, rfl⟩
      by_cases hfunction : 0 < block.notes.calls ∨ block.notes.entrypoint = true
      · have hfresh := p.temps.freshLikeAll_fresh block.params
        obtain ⟨functions, m, hrun, hmem, hall⟩ :=
          ih (p := { p with temps := (p.temps.freshLikeAll block.params).2 }) hrest
        refine ⟨(b, (p.temps.freshLikeAll block.params).1) :: functions, m, ?_, fun b' => ?_, ?_⟩
        · refine bind_ok_iff.mpr ⟨block, p, hread, ?_⟩
          rw [if_pos hfunction]
          exact bind_ok_iff.mpr ⟨_, _, rfl, bind_ok_iff.mpr ⟨_, _, hrun, rfl⟩⟩
        · rw [map_cons, mem_cons, hmem b', mem_cons, DefnId.block.injEq]
          constructor
          · rintro (rfl | ⟨hb', hf⟩)
            · exact ⟨.inl rfl, block, hblock, hfunction⟩
            · exact ⟨.inr hb', hf⟩
          · rintro ⟨rfl | hb', hf⟩
            · exact .inl rfl
            · exact .inr ⟨hb', hf⟩
        · refine forall_mem_cons.mpr ⟨⟨block, _, _, hblock, le_rfl, hfresh⟩, fun f hf => ?_⟩
          obtain ⟨block', n, n', hblock', hn, hfresh'⟩ := hall f hf
          exact ⟨block', n, n', hblock', le_trans hfresh.le hn, hfresh'⟩
      · obtain ⟨functions, m, hrun, hmem, hall⟩ := ih hrest
        refine ⟨functions, m, ?_, fun b' => ?_, hall⟩
        · refine bind_ok_iff.mpr ⟨block, p, hread, ?_⟩
          rw [if_neg hfunction]
          exact hrun
        · rw [hmem b', mem_cons, DefnId.block.injEq]
          refine ⟨fun ⟨hb', hf⟩ => ⟨.inr hb', hf⟩, ?_⟩
          rintro ⟨rfl | hb', hf⟩
          · obtain ⟨block', hblock', hf⟩ := hf
            obtain rfl := Except.ok.inj (hblock.symm.trans hblock')
            exact absurd hf hfunction
          · exact ⟨hb', hf⟩
    | closure | top =>
      obtain ⟨functions, m, hrun, hmem, hall⟩ := ih hrest
      exact ⟨functions, m, hrun, by simpa using hmem, hall⟩

theorem exists_flowGraphs (hcheck : p.check = .ok ()) (hcurrent : p.Current) :
    ∃ functions m gs next', flowGraphs small p = .ok gs { p with temps := m } ∧
      FlowGraph.AllDrawn { p with temps := m } small functions p.defns 0 gs next' ∧
      (∀ b, b ∈ functions.map Prod.fst ↔ .block b ∈ p.defns ∧ p.IsFunction b) ∧
      ∀ f ∈ functions, ∃ block n n', p.block f.1 = .ok block ∧ p.temps.size ≤ n ∧
        Fresh n block.params f.2 n' := by
  have hlinked := linked_of_check hcheck hcurrent
  obtain ⟨functions, m, hparams, hmem, hall⟩ := exists_functionParams fun b hb =>
    (hlinked.block hb).imp fun _ => And.left
  -- What graphs are built from does not depend on the table of variables.
  have hlinked' : Linked { p with temps := m } := hlinked
  obtain ⟨gs, next', hgs, hdrawn⟩ : ∃ gs next',
      FlowGraph.allGraphs { p with temps := m } small functions = .ok gs ∧
      FlowGraph.AllDrawn { p with temps := m } small functions p.defns 0 gs next' := by
    refine FlowGraph.exists_allGraphs hlinked' fun f hf block hblock => ?_
    obtain ⟨block', n, n', hblock', -, hfresh⟩ := hall f hf
    obtain rfl := Except.ok.inj (hblock.symm.trans hblock')
    exact hfresh.length_eq
  refine ⟨functions, m, gs, next', ?_, hdrawn, hmem, hall⟩
  exact bind_ok_iff.mpr ⟨p, p, rfl, bind_ok_iff.mpr
    ⟨functions, _, hparams, read_eq_ok_iff.mpr ⟨hgs, rfl⟩⟩⟩

/-- After a shake, a checked program has a graph for every function that its graphs call. -/
theorem flowGraphs_complete (p : Program) (w : Workbench) (small : Nat)
    (hshake : p.shake = .ok () w) (hcheck : w.program.check = .ok ()) :
    ∃ gs q, flowGraphs small w.program = .ok gs q ∧ FlowGraph.Complete w.program gs := by
  obtain ⟨hup, hroots⟩ := upToDate_of_shake hshake
  have hlinked := linked_of_check hcheck hup.current
  have hnodup := hup.current.nodup_defns
  obtain ⟨functions, m, gs, next', hrun, hall, hmem, -⟩ : ∃ functions m gs next',
      flowGraphs small w.program = .ok gs { w.program with temps := m } ∧ _ :=
    exists_flowGraphs hcheck hup.current
  have hlinked' : Linked { w.program with temps := m } := hlinked
  have hone {b : BlockId} (hb : .block b ∈ w.program.defns ∧ w.program.IsFunction b) :
      gs.countP (·.draws b) = 1 := by
    rw [hall.count b, if_pos ((hmem b).mpr hb)]
    exact count_eq_one_of_mem hnodup hb.1
  refine ⟨gs, _, hrun, fun b => ?_, fun g hg l hl c hkind => ?_, fun g hg b hb => ?_, fun b hb =>
    ?_, ?_⟩
  · rw [hall.count b]
    split
    · exact nodup_iff_count_le_one.mp hnodup _
    · exact Nat.zero_le 1
  · obtain ⟨_, _, hdrawn⟩ := hall.drawn g hg
    obtain ⟨hdefn, block, hblock, hcalls⟩ := hdrawn.call hlinked' hl hkind
    exact hone ⟨hdefn, block, hblock, .inl hcalls⟩
  · obtain ⟨_, _, hdrawn⟩ := hall.drawn g hg
    obtain ⟨hdefn, -⟩ := hdrawn.expands.added b hb (by simp)
    obtain ⟨block, hblock, -⟩ := hlinked.block hdefn
    exact ⟨block, hblock, fun c hc => hone (hup.isFunction_of_awaited hlinked hdefn hblock hc)⟩
  · have hroot : .block b ∈ w.program.roots := hroots ▸ hb
    exact hone (hup.isFunction_of_entrypoint hb (mem_filter.mp hroot).2)
  · obtain ⟨n, -, hnumbers⟩ := hall.numbers
    rw [hnumbers]
    exact nodup_range'

theorem flowGraphs_complete_weave : ∃ w gs q, weave.shake = .ok () w ∧ w.program.check = .ok () ∧
    flowGraphs 0 w.program = .ok gs q ∧
    (∃ g ∈ gs, ∃ l ∈ g.labels, l.kind = .call ⟨⟨2⟩, [.temp ⟨2⟩]⟩) ∧
      FlowGraph.Complete w.program gs := by
  obtain ⟨⟨⟩, w, hshake, hcheck⟩ := exists_ok (r := weave.shake)
    (fun _ w => w.program.check == .ok ()) (by cbv)
  obtain ⟨gs, q, hrun, hcalls⟩ := exists_ok (r := flowGraphs 0 (endState weave.shake).program)
    (fun gs _ => gs.any fun g => g.labels.toList.any fun l => l.kind == .call ⟨⟨2⟩, [.temp ⟨2⟩]⟩)
      (by cbv)
  rw [hshake] at hrun
  have hcheck := eq_of_beq hcheck
  obtain ⟨gs', q', hrun', hcomplete⟩ := flowGraphs_complete weave w 0 hshake hcheck
  obtain ⟨rfl, rfl⟩ := EStateM.Result.ok.inj (hrun.symm.trans hrun')
  simp only [any_eq_true, beq_iff_eq, Array.mem_toList_iff] at hcalls
  exact ⟨w, gs, q, hshake, hcheck, hrun, hcalls, hcomplete⟩

end Edit

end MonadicIR
