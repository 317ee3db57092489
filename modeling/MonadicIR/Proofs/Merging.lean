import MonadicIR.Proofs.Equivalence
import MonadicIR.Proofs.Mergeable

namespace MonadicIR

open Program List

namespace Program

variable {p q : Program}

theorem redirectTail_eq (t : Tail) :
    p.redirectTail t = t.retarget p.blockReplacement p.closureReplacement := by
  cases t <;> rfl

theorem redirectTail_twice {t : Tail} (h : ∀ b, .block b ∈ t.refs →
      p.blockReplacement (p.blockReplacement b) = p.blockReplacement b) :
    (p.redirectTail t).mapCall p.redirectCall =
      t.retarget p.blockReplacement p.closureReplacement := by
  cases t with
  | call c =>
    have htarget := h c.target (Tail.mem_refs_call.mpr (.inl rfl))
    simp [redirectTail, redirectCall, Tail.mapCall, Tail.retarget, htarget]
  | ret | enter | data | closure | sel | prim => rfl

/-- Where the target of a replacement is not replaced again, the second look-up changes nothing. -/
theorem redirectCode_eq {code : Code} (h : ∀ b, .block b ∈ code.refs →
      p.blockReplacement (p.blockReplacement b) = p.blockReplacement b) :
    p.redirectCode code = code.retarget p.blockReplacement p.closureReplacement := by
  have hcall : p.redirectCall = Call.retarget p.blockReplacement := rfl
  unfold redirectCode
  induction code with
  | done t =>
    have ht := redirectTail_twice fun b hb => h b (Code.mem_refs_done.mpr hb)
    simp [Code.mapTails, Code.mapCalls, Code.mapBranches, Code.retarget, ht]
  | bind vars t rest ih =>
    have ht := redirectTail_twice fun b hb => h b (Code.mem_refs_bind.mpr (.inl hb))
    have hrest := ih fun b hb => h b (Code.mem_refs_bind.mpr (.inr hb))
    simp only [Code.mapCalls] at hrest
    simp [Code.mapTails, Code.mapCalls, Code.mapBranches, Code.retarget, ht, hrest]
  | assert a ctor rest ih =>
    have hrest := ih fun b hb => h b (Code.mem_refs_assert.mpr (.inr hb))
    simp only [Code.mapCalls] at hrest
    simp [Code.mapTails, Code.mapCalls, Code.mapBranches, Code.retarget, hrest]
  | branch test yes no =>
    simp [Code.mapTails, Code.mapCalls, Code.mapBranches, Code.retarget, hcall]
  | switch a alts => simp [Code.mapTails, Code.mapCalls, Code.mapBranches, Code.retarget, hcall]

theorem defns_redirect : p.redirect.defns = p.defns := by
  simp [redirect, defns, allDefns, blockIds, closureIds, topIds]

theorem mem_retained {α : Type} {name : α → DefnId} {f : DefnId → Option α}
    (hf : ∀ d a, f d = some a ↔ d = name a) {a : α} : a ∈ p.defns.filterMap f ↔
      name a ∈ p.defns := by
  simp [mem_filterMap, hf]

theorem mem_retainedBlocks {b : BlockId} : b ∈ p.retainedBlocks ↔ .block b ∈ p.defns :=
  mem_retained (by rintro (_ | _ | _) _ <;> simp)

theorem mem_retainedClosures {k : ClosureId} : k ∈ p.retainedClosures ↔ .closure k ∈ p.defns :=
  mem_retained (by rintro (_ | _ | _) _ <;> simp)

theorem mem_retainedTops {t : TopId} : t ∈ p.retainedTops ↔ .top t ∈ p.defns :=
  mem_retained (by rintro (_ | _ | _) _ <;> simp)

theorem nodup_retainedBlocks (h : p.defns.Nodup) : p.retainedBlocks.Nodup :=
  h.filterMap (by rintro (_ | _ | _) (_ | _ | _) _ ⟨⟩ ⟨⟩; rfl)

theorem nodup_retainedClosures (h : p.defns.Nodup) : p.retainedClosures.Nodup :=
  h.filterMap (by rintro (_ | _ | _) (_ | _ | _) _ ⟨⟩ ⟨⟩; rfl)

theorem nodup_retainedTops (h : p.defns.Nodup) : p.retainedTops.Nodup :=
  h.filterMap (by rintro (_ | _ | _) (_ | _ | _) _ ⟨⟩ ⟨⟩; rfl)

/-- The second program has notes of what is merged. Each retained definition of the first one is
kept or merged into one that is kept. -/
structure Annotates (p m : Program) : Prop where
  bare : m.bare = p.bare
  block : ∀ b, p.Retained (.block b) → m.blockNote b = none ∨
    p.isEntrypoint (.block b) = false ∧ ∃ c, m.blockNote b = some c ∧ m.blockNote c = none ∧
      p.SameBlocks c b ∧ p.Retained (.block c)
  closure : ∀ k, p.Retained (.closure k) → m.closureNote k = none ∨
    ∃ l, m.closureNote k = some l ∧ m.closureNote l = none ∧ p.SameClosures l k ∧
      p.Retained (.closure l)

variable {m : Program}

theorem exists_block_of_bare (h : m.bare = p.bare) {i : Nat} {block : Block}
    (hb : p.blocks[i]? = some block) : ∃ r, m.blocks[i]? = some { block with replacement := r } :=
  Mergeable.blocks.find?_of_bare (a := ⟨i⟩) h hb

theorem exists_closure_of_bare (h : m.bare = p.bare) {i : Nat} {closure : Closure}
    (hk : p.closures[i]? = some closure) :
    ∃ r, m.closures[i]? = some { closure with replacement := r } :=
  Mergeable.closures.find?_of_bare (a := ⟨i⟩) h hk

namespace Annotates

theorem tops (h : Annotates p m) : m.tops = p.tops := by
  have htops := congrArg Program.tops h.bare
  exact htops

theorem blockReplacement_twice (h : Annotates p m) {b : BlockId} (hret : p.Retained (.block b)) :
    m.blockReplacement (m.blockReplacement b) = m.blockReplacement b := by
  have hstays {c : BlockId} (hc : m.blockNote c = none) : m.blockReplacement c = c := by
    rw [blockReplacement_eq_getD (by simp [hc]), hc, Option.getD_none]
  obtain hnone | ⟨-, c, hc, hnone, -⟩ := h.block b hret
  · rw [hstays hnone, hstays hnone]
  · rw [blockReplacement_eq_getD (b := b) (by simp [hc, hnone]), hc, Option.getD_some, hstays hnone]

theorem merges_redirect (h : Annotates p m) (hcurrent : p.Current) (hcheck : p.check = .ok ())
    (hdecl : p.Declared) : Merges p m.redirect m.blockReplacement m.closureReplacement where
  current := hcurrent
  checked := hcheck
  declared := hdecl
  block {b block} hret hb := by
    obtain hnone | ⟨-, c, hc, hnone, ⟨x, y, hx, hy, hxy⟩, hretc⟩ := h.block b hret
    · rw [blockReplacement_eq_getD (by simp [hnone]), hnone]
      exact ⟨block, hret, hb, block.alphaEquiv_self⟩
    · rw [blockReplacement_eq_getD (by simp [hc, hnone]), hc]
      obtain rfl := Option.mem_unique hb hy
      exact ⟨x, hretc, hx, hxy⟩
  closure {k closure} hret hk := by
    obtain hnone | ⟨l, hl, hnone, ⟨x, y, hx, hy, hxy⟩, hretl⟩ := h.closure k hret
    · rw [closureReplacement_eq_getD (by simp [hnone]), hnone]
      exact ⟨closure, hret, hk, closure.alphaEquiv_self⟩
    · rw [closureReplacement_eq_getD (by simp [hl, hnone]), hl]
      obtain rfl := Option.mem_unique hk hy
      exact ⟨x, hretl, hx, hxy⟩
  blocks {b block} hret hb := by
    obtain ⟨r, hb'⟩ := exists_block_of_bare h.bare hb
    refine ⟨{ block with code := m.redirectCode block.code, replacement := r },
      by simp [redirect, hb'], rfl, ?_⟩
    exact redirectCode_eq fun c hc =>
      h.blockReplacement_twice (hcurrent.retained_of_code hret hb hc)
  closures {i closure} hk := by
    obtain ⟨r, hk'⟩ := exists_closure_of_bare h.bare hk
    refine ⟨{ closure with tail := m.redirectTail closure.tail, replacement := r },
      by simp [redirect, hk'], rfl, rfl, ?_⟩
    rw [← redirectTail_eq]
  tops {i top} ht := by
    refine ⟨{ top with tail := m.redirectTail top.tail }, by simp [redirect, h.tops, ht], rfl, ?_⟩
    rw [← redirectTail_eq]

theorem merges_id (h : Annotates p m) (hcurrent : p.Current) (hcheck : p.check = .ok ())
    (hdecl : p.Declared) : Merges p m id id where
  current := hcurrent
  checked := hcheck
  declared := hdecl
  block {b block} hret hb := ⟨block, hret, hb, block.alphaEquiv_self⟩
  closure {k closure} hret hk := ⟨closure, hret, hk, closure.alphaEquiv_self⟩
  blocks {b block} _ hb := by
    rw [Code.retarget_id]
    obtain ⟨r, hb⟩ := exists_block_of_bare h.bare hb
    exact ⟨_, hb, rfl, rfl⟩
  closures {i closure} hk := by
    rw [Tail.retarget_id]
    obtain ⟨r, hk⟩ := exists_closure_of_bare h.bare hk
    exact ⟨_, hk, rfl, rfl, rfl⟩
  tops {i top} ht := by
    rw [Tail.retarget_id, h.tops]
    exact ⟨top, ht, rfl, rfl⟩

end Annotates

end Program

theorem Atom.eq_of_alpha_nil {a b : Atom} (h : a.alpha [] b = true) : a = b := by
  cases a <;> cases b <;> simp_all [alpha, Pairing.corresponds]

theorem Atom.eq_of_alphaAll_nil {as bs : List Atom} (h : Atom.alphaAll [] as bs = true) :
    as = bs := by
  rw [alphaAll_iff] at h
  induction h with
  | nil => rfl
  | cons hab _ ih => rw [Atom.eq_of_alpha_nil hab, ih]

theorem Tail.eq_of_alpha_nil {p : Program} {t u : Tail} (h : t.alpha [] u = true)
    (ht : ∀ c ∈ t.ctors, p.Declares c) (hu : ∀ c ∈ u.ctors, p.Declares c) : t = u := by
  cases t <;> cases u <;> simp only [alpha, Bool.false_eq_true, Bool.and_eq_true, beq_iff_eq] at h
  case ret.ret => rw [Atom.eq_of_alphaAll_nil h]
  case enter.enter => rw [Atom.eq_of_alpha_nil h.1, Atom.eq_of_alphaAll_nil h.2]
  case call.call c d =>
    obtain ⟨target, args⟩ := c
    obtain ⟨target', args'⟩ := d
    simp only [Call.alpha, Bool.and_eq_true, beq_iff_eq] at h
    rw [h.1, Atom.eq_of_alphaAll_nil h.2]
  case data.data c _ d _ =>
    rw [(ht c (by simp [ctors])).eq_of_same (hu d (by simp [ctors])) h.1,
      Atom.eq_of_alphaAll_nil h.2]
  case closure.closure => rw [h.1, Atom.eq_of_alphaAll_nil h.2]
  case sel.sel c _ _ d _ _ =>
    rw [(ht c (by simp [ctors])).eq_of_same (hu d (by simp [ctors])) h.1.1, h.1.2,
      Atom.eq_of_alpha_nil h.2]
  case prim.prim => rw [h.1, Atom.eq_of_alphaAll_nil h.2]

namespace Program

variable {p q : Program}

/-- The top-level that returns what another one computes. -/
def shareTop (c : TopId) (top : TopLevel) : TopLevel :=
  { top with tail := .ret ((List.range top.lhs.length).map fun i => .top ⟨c, i⟩) }

/-- In the second program the top-level shares the values of an equivalent one, which is as before. -/
def SharesTop (p q : Program) (t c : TopId) : Prop :=
  ∃ top other, p.tops[t.index]? = some top ∧ p.tops[c.index]? = some other ∧
    other.alphaEquiv top = true ∧ q.tops[t.index]? = some (shareTop c top) ∧
    q.tops[c.index]? = some other

end Program

namespace Pass

theorem mergeTops_cons {t : TopId} {ts : List TopId} {groups : Groups TopId} {s s' : Workbench}
    {u : Unit} (h : mergeTops (t :: ts) groups s = .ok u s') :
    ∃ top, s.program.tops[t.index]? = some top ∧
      ((∃ c other s1, c ∈ groups.map Prod.snd ∧ s.program.tops[c.index]? = some other ∧
          other.alphaEquiv top = true ∧ s1.program = s.program.setTop t (shareTop c top) ∧
          mergeTops ts groups s1 = .ok u s') ∨
        ∃ groups', (∀ c ∈ groups'.map Prod.snd, c = t ∨ c ∈ groups.map Prod.snd) ∧
          mergeTops ts groups' s = .ok u s') := by
  simp only [mergeTops, bind_ok_iff, look_eq_ok_iff, top_eq_ok_iff] at h
  obtain ⟨top, _, ⟨htop, hlook⟩, h⟩ := h
  rw [hlook] at h
  refine ⟨top, htop, ?_⟩
  by_cases hskip : (!top.tail.isPure || mergeTops.isReturn top.tail) = true
  · rw [if_pos hskip] at h
    exact .inr ⟨groups, fun _ => .inr, h⟩
  · rw [if_neg hskip] at h
    simp only [bind_ok_iff, get_ok_iff] at h
    obtain ⟨_, _, ⟨hget, hstay⟩, h⟩ := h
    rw [hstay, hget] at h
    cases hc : if s.program.isEntrypoint (.top t) then none else groups.find top.summary
      fun other =>
        (s.program.tops[other.index]?).any (·.alphaEquiv top) with
    | none =>
      simp only [hc] at h
      refine .inr ⟨_, fun c hc => ?_, h⟩
      rw [map_append, mem_append] at hc
      exact hc.symm.imp_left mem_singleton.mp
    | some c =>
      simp only [hc, bind_ok_iff, edit_eq_ok_iff, Edit.modifyTop_eq_ok_iff,
        workOn_eq_ok_iff, report_eq_ok_iff, htop] at h
      obtain ⟨_, _, ⟨_, ⟨_, ⟨⟩, rfl⟩, rfl⟩, _, _, rfl, _, _, rfl, h⟩ := h
      split at hc
      · cases hc
      · obtain ⟨hmem, hsame⟩ := Groups.find_eq_some hc
        obtain ⟨other, hother, hα⟩ := (Option.any_eq_true ..).mp hsame
        exact .inl ⟨c, other, _, hmem, hother, hα, rfl, h⟩

/-- Only listed top-levels change, and these share the values of others that do not. -/
theorem mergeTops_spec {ts : List TopId} {groups : Groups TopId} {s s' : Workbench} {u : Unit}
    (h : mergeTops ts groups s = .ok u s') (hnodup : ts.Nodup)
    (hkept : ∀ c ∈ groups.map Prod.snd, c ∉ ts) :
    s'.program = { s.program with tops := s'.program.tops } ∧
      (∀ t ∉ ts, s'.program.tops[t.index]? = s.program.tops[t.index]?) ∧
      ∀ t ∈ ts, s'.program.tops[t.index]? = s.program.tops[t.index]? ∨
        ∃ c, (c ∈ ts ∨ c ∈ groups.map Prod.snd) ∧ s.program.SharesTop s'.program t c := by
  induction ts generalizing groups s with
  | nil =>
    simp only [mergeTops, pure_ok_iff] at h
    simp [h.2]
  | cons t ts ih =>
    obtain ⟨hnew, hnodup⟩ := nodup_cons.mp hnodup
    have hkeep (c) (hc : c ∈ groups.map Prod.snd) : c ≠ t ∧ c ∉ ts := by
      simpa [not_or] using hkept c hc
    obtain ⟨top, htop, ⟨c, other, s1, hc, hother, hα, hs1, h⟩ | ⟨groups', hgroups, h⟩⟩ :=
      mergeTops_cons h
    · obtain ⟨hprogram, hrest, hall⟩ := ih h hnodup fun d hd => (hkeep d hd).2
      have hget {x : TopId} (hx : x ≠ t) : s1.program.tops[x.index]? =
        s.program.tops[x.index]? := by
        rw [hs1, getElem?_setTop htop, if_neg hx]
      refine ⟨by rw [hprogram, hs1]; rfl, fun x hx => ?_, fun x hx => ?_⟩
      · rw [mem_cons, not_or] at hx
        rw [hrest x hx.2, hget hx.1]
      · obtain rfl | hx := mem_cons.mp hx
        · refine .inr ⟨c, .inr hc, top, other, htop, hother, hα, ?_, ?_⟩
          · rw [hrest x hnew, hs1, getElem?_setTop htop, if_pos rfl]
          · rw [hrest c (hkeep c hc).2, hget (hkeep c hc).1, hother]
        · have hne : x ≠ t := fun h => hnew (h ▸ hx)
          rw [← hget hne]
          refine (hall x hx).imp_right ?_
          rintro ⟨d, hd, y, z, hy, hz, hshare⟩
          have hdt : d ≠ t := hd.elim (fun hd h => hnew (h ▸ hd)) fun hd => (hkeep d hd).1
          rw [hget hne] at hy
          rw [hget hdt] at hz
          exact ⟨d, hd.imp_left (mem_cons_of_mem _), y, z, hy, hz, hshare⟩
    · obtain ⟨hprogram, hrest, hall⟩ := ih h hnodup fun d hd => by
        obtain rfl | hd := hgroups d hd
        · exact hnew
        · exact (hkeep d hd).2
      refine ⟨hprogram, fun x hx => hrest x fun h => hx (.tail _ h), fun x hx => ?_⟩
      obtain rfl | hx := mem_cons.mp hx
      · exact .inl (hrest x hnew)
      · refine (hall x hx).imp_right ?_
        rintro ⟨d, hd, hshare⟩
        refine ⟨d, ?_, hshare⟩
        obtain hd | hd := hd
        · exact .inl (.tail _ hd)
        · exact (hgroups d hd).imp_left fun h => mem_cons.mpr (.inl h)

end Pass

namespace Program

variable {p q : Program}

theorem hasTop_of_shared (hpure : p.PureTops)
    (h : ∀ t : TopId, q.tops[t.index]? = p.tops[t.index]? ∨
      ∃ c top other, p.tops[t.index]? = some top ∧ q.tops[t.index]? = some (shareTop c top) ∧
        q.tops[c.index]? = some other ∧ other.tail = top.tail ∧ other.lhs.length = top.lhs.length)
    {t : TopId} {vs : List Value} (ht : p.HasTop t vs) : q.HasTop t vs := by
  obtain ⟨height, ht⟩ := ht
  induction height generalizing t vs with
  | zero => exact ht.elim
  | succ height ih =>
    obtain ⟨top, htop, hl, hs⟩ := ht
    have hs' := (hs {}).mono (fun _ _ => ih) fun _ _ _ => id
    have hp := hpure.isPure htop
    obtain hsame | ⟨c, _, other, htop', hshare, hother, htail, hlhs⟩ := h t
    · exact .intro (hsame.trans htop) hp hl hs'
    · obtain rfl := Option.mem_unique htop htop'
      have hc : q.HasTop c vs := .intro hother (htail ▸ hp) (hl.trans hlhs.symm) (htail ▸ hs')
      have hvalues : Atom.HasAll q.HasTop [] ((range top.lhs.length).map fun i =>
        .top ⟨c, i⟩) vs := by
        refine forall₂_iff_get.mpr ⟨by simp [hl], fun i hi hv => ?_⟩
        simp only [get_eq_getElem, getElem_map, getElem_range]
        exact ⟨vs, hc, getElem?_eq_getElem hv⟩
      have hreturn : (shareTop c top).tail.Simple q.HasTop Allocates [] {} (.returned vs) {} :=
        ⟨vs, hvalues, rfl, rfl⟩
      exact .intro hshare rfl hl hreturn

end Program

theorem Merges.declares_top {p q : Program} {f : BlockId → BlockId} {g : ClosureId → ClosureId}
    (h : Merges p q f g) {t : TopId} (hret : p.Retained (.top t)) {top : TopLevel}
    (ht : q.tops[t.index]? = some top) : ∀ c ∈ top.tail.ctors, p.Declares c := by
  obtain ⟨top', ht', -⟩ := checkDefn_top.mp (checkDefn_of_retained h.checked hret)
  obtain ⟨_, hq, -, htail⟩ := h.tops ht'
  obtain rfl := Option.mem_unique ht hq
  intro c hc
  rw [htail, Tail.ctors_retarget] at hc
  exact h.declared _ hret c (by simpa [ctors, ht'] using hc)

namespace Pass

variable {s s' : Workbench} {u : Unit} {d : DefnId}

theorem round_eq_ok_iff {x : Workbench → Pass Bool} {r : Bool} :
    (do let merged ← x (← get); workOn none; return merged : Pass Bool) s = .ok r s' ↔
      ∃ s1, x s s = .ok r s1 ∧ s' = { s1 with current := none } := by
  simp only [bind_ok_iff, get_ok_iff, workOn_eq_ok_iff, pure_ok_iff]
  constructor
  · rintro ⟨_, _, ⟨rfl, rfl⟩, _, s1, hmerge, _, _, rfl, rfl, rfl⟩
    exact ⟨s1, hmerge, rfl⟩
  · rintro ⟨s1, hmerge, rfl⟩
    exact ⟨s, s, ⟨rfl, rfl⟩, r, s1, hmerge, (), _, rfl, rfl, rfl⟩

theorem collapseBlocks_eq_ok_iff {r : Bool} : collapseBlocks s = .ok r s' ↔
    ∃ s1, mergeBlocks s.program.retainedBlocks [] s = .ok r s1 ∧ s' = { s1 with current := none } :=
  round_eq_ok_iff

theorem collapseClosures_eq_ok_iff {r : Bool} : collapseClosures s = .ok r s' ↔
    ∃ s1, mergeClosures s.program.retainedClosures [] s = .ok r s1 ∧
      s' = { s1 with current := none } :=
  round_eq_ok_iff

theorem collapseTops_eq_ok (h : collapseTops s = .ok u s') :
    ∃ s1, mergeTops s.program.retainedTops [] s = .ok () s1 ∧ s'.program = s1.program := by
  simp only [collapseTops, bind_ok_iff, get_ok_iff, workOn_eq_ok_iff] at h
  obtain ⟨_, _, ⟨rfl, rfl⟩, _, s1, hmerge, rfl⟩ := h
  exact ⟨s1, hmerge, rfl⟩

theorem program_of_redirect (h : redirect s = .ok u s') :
    s'.program = s.program.redirect := by
  simp only [redirect, bind_ok_iff, get_ok_iff] at h
  obtain ⟨_, _, ⟨hget, hstay⟩, h⟩ := h
  rw [hget, hstay] at h
  cases hd : s.program.dangling? with
  | some d => simp [hd] at h
  | none =>
    simp only [hd, modify_ok_iff] at h
    rw [h]

theorem collapse_eq_ok (h : collapse s = .ok u s') :
    ∃ s1 s2 s3 blocks closures, collapseBlocks s = .ok blocks s1 ∧
      collapseClosures s1 = .ok closures s2 ∧
      s3.program = (if blocks || closures then s2.program.redirect else s2.program) ∧
      collapseTops s3 = .ok u s' := by
  simp only [collapse, bind_ok_iff] at h
  obtain ⟨blocks, s1, hblocks, closures, s2, hclosures, h⟩ := h
  by_cases hmerged : (blocks || closures) = true
  · rw [if_pos hmerged, bind_ok_iff] at h
    obtain ⟨_, s3, hredirect, h⟩ := h
    exact ⟨s1, s2, s3, blocks, closures, hblocks, hclosures,
      by rw [if_pos hmerged, program_of_redirect hredirect], h⟩
  · rw [if_neg hmerged] at h
    exact ⟨s1, s2, s2, blocks, closures, hblocks, hclosures, by rw [if_neg hmerged], h⟩

theorem annotates {r r' : Bool} {s1 s2 : Workbench} (hcurrent : s.program.Current)
    (hd : s.program.Retained d) (hblocks : collapseBlocks s = .ok r s1)
    (hclosures : collapseClosures s1 = .ok r' s2) : s.program.Annotates s2.program := by
  obtain ⟨s1, hmerge, rfl⟩ := collapseBlocks_eq_ok_iff.mp hblocks
  obtain ⟨s2, hmerge', rfl⟩ := collapseClosures_eq_ok_iff.mp hclosures
  obtain ⟨hbare, -, hcourse⟩ := Mergeable.blocks.course (f := fun _ => ()) (fun _ _ _ => rfl) hmerge
  obtain ⟨hbare', hkept, hcourse'⟩ :=
    Mergeable.closures.course (f := blocks) (fun _ _ _ => rfl) hmerge'
  have hdefns := defns_of_retained hd
  have hdefns' := defns_of_bare hbare
  have hnodup : s.program.defns.Nodup := hdefns ▸ hcurrent.nodup
  have hmem {e : DefnId} : e ∈ s.program.defns ↔ s.program.Retained e := by rw [hdefns]; rfl
  obtain ⟨-, hall⟩ := hcourse.settles (nodup_retainedBlocks hnodup) (by simp)
  obtain ⟨-, hall'⟩ := hcourse'.settles (nodup_retainedClosures (hdefns' ▸ hnodup)) (by simp)
  have hnote : s2.program.blockNote = s1.program.blockNote := by
    funext b
    rw [blockNote, hkept, blockNote]
  refine ⟨hbare'.trans hbare, fun b hb => ?_, fun k hk => ?_⟩
  · rw [hnote]
    refine (hall b (mem_retainedBlocks.mpr (hmem.mpr hb))).imp_right ?_
    rintro ⟨-, hentry, c, hc, hnone, hsame, hcm⟩
    have hcm : c ∈ s.program.retainedBlocks := by simpa using hcm
    exact ⟨hentry, c, hc, hnone, hsame, hmem.mp (mem_retainedBlocks.mp hcm)⟩
  · refine (hall' k (mem_retainedClosures.mpr (hdefns' ▸ hmem.mpr hk))).imp_right ?_
    rintro ⟨-, -, l, hl, hnone, hsame, hlm⟩
    have hlm : l ∈ s1.program.retainedClosures := by simpa using hlm
    exact ⟨l, hl, hnone, hsame.of_bare hbare.symm, hmem.mp (hdefns' ▸ mem_retainedClosures.mp hlm)⟩

theorem merges_of_collapse (hcurrent : s.program.Current) (hcheck : s.program.check = .ok ())
    (hdecl : s.program.Declared) (hd : s.program.Retained d) (h : collapse s = .ok u s') :
    ∃ s1 f g, collapseTops s1 = .ok u s' ∧ s1.program.defns = s.program.defns ∧
      (s.program.PureTops → s1.program.PureTops) ∧ Merges s.program s1.program f g ∧
      ∀ b, .block b ∈ s.program.entrypoints → s.program.Retained (.block b) → f b = b := by
  obtain ⟨_, m, s1, blocks, closures, hblocks, hclosures, hs1, htops⟩ := collapse_eq_ok h
  have hnotes := annotates hcurrent hd hblocks hclosures
  have hdefns := Program.defns_of_bare hnotes.bare
  by_cases hmerged : (blocks || closures) = true
  · rw [if_pos hmerged] at hs1
    refine ⟨s1, m.program.blockReplacement, m.program.closureReplacement, htops, ?_, ?_, ?_, ?_⟩
    · rw [hs1, Program.defns_redirect, hdefns]
    · intro hpure top htop
      rw [hs1, Program.redirect, hnotes.tops, Array.mem_map] at htop
      obtain ⟨top, htop, rfl⟩ := htop
      rw [Program.redirectTail_eq, Tail.isPure_retarget]
      exact hpure top htop
    · rw [hs1]
      exact hnotes.merges_redirect hcurrent hcheck hdecl
    · intro b hb hret
      obtain hnone | ⟨hentry, -⟩ := hnotes.block b hret
      · rw [Program.blockReplacement_eq_getD (by simp [hnone]), hnone, Option.getD_none]
      · simp [Program.isEntrypoint, hb] at hentry
  · rw [if_neg hmerged] at hs1
    refine ⟨s1, id, id, htops, by rw [hs1, hdefns], ?_, ?_, fun _ _ _ => rfl⟩
    · rw [hs1, Program.PureTops, Program.PureTops, hnotes.tops]
      exact id
    · rw [hs1]
      exact hnotes.merges_id hcurrent hcheck hdecl

/-- After top-levels were merged, each one is as before or has the values of an equal one. -/
theorem shares_of_collapseTops {p : Program} {f : BlockId → BlockId} {g : ClosureId → ClosureId}
    (h : Merges p s.program f g) (hdefns : s.program.defns = p.defns) (hd : p.Retained d)
    (htops : collapseTops s = .ok u s') :
    s'.program.blocks = s.program.blocks ∧ s'.program.closures = s.program.closures ∧
      ∀ t : TopId, s'.program.tops[t.index]? = s.program.tops[t.index]? ∨
        ∃ c top other, s.program.tops[t.index]? = some top ∧
          s'.program.tops[t.index]? = some (shareTop c top) ∧
          s'.program.tops[c.index]? = some other ∧ other.tail = top.tail ∧
          other.lhs.length = top.lhs.length := by
  obtain ⟨s1, htops, hs'⟩ := collapseTops_eq_ok htops
  have hall := hdefns.trans (defns_of_retained hd)
  have hret {t : TopId} (ht : t ∈ s.program.retainedTops) : p.Retained (.top t) := by
    rwa [mem_retainedTops, hall] at ht
  obtain ⟨hprogram, hrest, hshare⟩ :=
    mergeTops_spec htops (nodup_retainedTops (hall ▸ h.current.nodup)) (by simp)
  rw [← hs'] at hprogram hrest hshare
  refine ⟨by rw [hprogram], by rw [hprogram], fun t => ?_⟩
  by_cases ht : t ∈ s.program.retainedTops
  · refine (hshare t ht).imp_right ?_
    rintro ⟨c, hc, top, other, htop, hother, hα, hnew, hkept⟩
    simp only [TopLevel.alphaEquiv, Bool.and_eq_true, beq_iff_eq] at hα
    have hc : c ∈ s.program.retainedTops := by simpa using hc
    have htail := Tail.eq_of_alpha_nil hα.2 (h.declares_top (hret hc) hother)
      (h.declares_top (hret ht) htop)
    exact ⟨c, top, other, htop, hnew, hkept, htail, hα.1⟩
  · exact .inl (hrest t ht)

/-- Merging keeps what programs do. If it succeeds, runs of entrypoints that return or halt stay as
they are, within the same number of steps. -/
theorem collapse_preserves (s s' : Workbench) (hcheck : s.program.check = .ok ())
    (hcurrent : s.program.Current) (hdecl : s.program.Declared) (hpure : s.program.PureTops)
    (h : collapse s = .ok () s') :
    ∀ b, .block b ∈ s.program.entrypoints → ∀ args limit o,
      s.program.run (.block b) args limit = .ok o → o.termination ≠ .diverged →
        s'.program.run (.block b) args limit = .ok o := by
  intro b hb args limit o hrun ho
  rw [run_block, runNested_eq_ok_iff hpure ho] at hrun
  obtain ⟨e, w', hrun, rfl⟩ := hrun
  have hret := hcurrent.retained_root hb hrun.defines
  obtain ⟨s1, f, g, htops, hdefns, hpure1, hmerges, hfix⟩ :=
    merges_of_collapse hcurrent hcheck hdecl hret h
  obtain ⟨hblocks, hclosures, hshare⟩ := shares_of_collapseTops hmerges hdefns hret htops
  have hpure' : s'.program.PureTops := by
    intro top htop
    obtain ⟨i, hi, rfl⟩ := Array.mem_iff_getElem.mp htop
    have hi := Array.getElem?_eq_getElem hi
    obtain hsame | ⟨c, top, -, -, hnew, -⟩ := hshare ⟨i⟩
    · exact (hpure1 hpure).isPure (hsame ▸ hi)
    · rw [Option.mem_unique hi hnew]
      rfl
  obtain ⟨calls, hrun'⟩ := hmerges.run hb (hfix b hb hret) hrun
  have hle := meaning_le hblocks hclosures (hasTop_of_shared (hpure1 hpure) hshare)
    (.refl .machine) (Nat.le_refl calls)
  rw [run_block, runNested_eq_ok_iff hpure' ho]
  refine ⟨_, w', ⟨calls, hle.jump hrun'⟩, ?_⟩
  cases e with
  | returned vs =>
    simp [Ending.outcome, Ending.map, ← Value.redirectAll_eq, Value.observeAll_redirectAll]
  | halted => rfl

end Pass

/-- A block, a closure and a top-level that are there twice. -/
def Program.twins : Program :=
  let pair : Ctor := ⟨0, 0, 2, 1, "Pair"⟩
  { temps := ⟨.replicate 9 none⟩
    datatypes := #[⟨"pair", [pair]⟩]
    blocks := #[
      { params := [⟨1⟩], code := .done (.enter (.top ⟨⟨0⟩, 0⟩) [.temp ⟨1⟩]) },
      { params := [⟨2⟩], code := .done (.enter (.top ⟨⟨1⟩, 0⟩) [.temp ⟨2⟩]) },
      { params := [⟨3⟩], code := .jump ⟨⟨4⟩, [.temp ⟨3⟩]⟩ },
      { params := [⟨4⟩], code := .jump ⟨⟨5⟩, [.temp ⟨4⟩]⟩ },
      { params := [⟨5⟩], code := .done (.data pair [.temp ⟨5⟩, .word 1]) },
      { params := [⟨6⟩], code := .done (.data pair [.temp ⟨6⟩, .word 1]) }]
    closures := #[
      { stored := [], params := [⟨7⟩], tail := .call ⟨⟨3⟩, [.temp ⟨7⟩]⟩ },
      { stored := [], params := [⟨8⟩], tail := .call ⟨⟨3⟩, [.temp ⟨8⟩]⟩ }]
    tops := #[
      { lhs := [{ name := "left" }], tail := .closure ⟨0⟩ [] },
      { lhs := [{ name := "right" }], tail := .closure ⟨1⟩ [] }]
    entrypoints := [.block ⟨0⟩, .block ⟨1⟩, .block ⟨2⟩] : Program }.setComponents
    [⟨[.block ⟨5⟩], false, []⟩, ⟨[.block ⟨3⟩], false, [0]⟩, ⟨[.closure ⟨0⟩], false, [1]⟩,
      ⟨[.top ⟨0⟩], false, [2]⟩, ⟨[.block ⟨0⟩], false, [3]⟩, ⟨[.closure ⟨1⟩], false, [1]⟩,
      ⟨[.top ⟨1⟩], false, [5]⟩, ⟨[.block ⟨1⟩], false, [6]⟩, ⟨[.block ⟨4⟩], false, []⟩,
      ⟨[.block ⟨2⟩], false, [8]⟩]

theorem Pass.collapse_preserves_twins :
    Program.twins.check = .ok () ∧ Program.twins.Current ∧ Program.twins.Declared ∧
      Program.twins.PureTops ∧ ∃ s', collapse { program := .twins } = .ok () s' ∧ s'.count = 3 ∧
        s'.program.run (.block ⟨1⟩) [4] 4 =
          .ok ⟨[], .returned [.data "Pair" [.word 4, .word 1]]⟩ := by
  have hcheck : twins.check = .ok () := by decide +kernel
  have hcurrent : twins.Current :=
    ⟨twins.components.toList, by decide +kernel, by decide +kernel⟩
  have hdecl : twins.Declared := by decide +kernel
  have hpure : twins.PureTops := by
    simp [PureTops, twins, setComponents, mapNotes, Tail.isPure,
      Tail.purity, Purity.isPure]
  obtain ⟨⟨⟩, s', h, hcount⟩ := exists_ok (r := collapse { program := .twins })
    (fun _ s' => s'.count == 3) (by decide +kernel)
  exact ⟨hcheck, hcurrent, hdecl, hpure, s', h, eq_of_beq hcount,
    collapse_preserves { program := .twins } s' hcheck hcurrent hdecl hpure h
      ⟨1⟩ (by decide +kernel) [4] 4 _ (by decide +kernel) (by decide)⟩

end MonadicIR
