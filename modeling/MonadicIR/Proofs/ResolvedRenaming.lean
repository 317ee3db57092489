import MonadicIR.Proofs.MergedParams

namespace MonadicIR

theorem Subst.forall₂_extendAll {s : Subst} {ts : List Temp} {as : List Atom}
    (hnodup : (named ts).Nodup)
    (hlen : ts.length = as.length) : List.Forall₂ (fun t a => t.isWildcard = false →
      (s.extendAll ts as).lookup t = some a) ts as := by
  induction ts generalizing s as with
  | nil =>
    obtain rfl := List.length_eq_zero_iff.mp hlen.symm
    exact .nil
  | cons t ts ih =>
    cases as with
    | nil => cases hlen
    | cons a as =>
      have hsub : (named ts).Sublist (named (t :: ts)) := (List.sublist_cons_self t ts).filter _
      refine .cons (fun ht => ?_) (ih (hnodup.sublist hsub) (Nat.succ.inj hlen))
      have hnew : t ∉ named ts := by
        rw [named, List.filter_cons_of_pos (by simp [ht])] at hnodup
        exact (List.nodup_cons.mp hnodup).1
      rw [extendAll, lookup_extendAll_of_notMem hnew, lookup_extend, if_pos ⟨rfl, ht⟩]

namespace FlowGraph

variable {p : Program} {kind : Kind} {labels : Array Label} {starts : List Call} {g : FlowGraph}

theorem Untangled.not_late (hu : Untangled p starts labels) {n : Nat} {c : Call}
    (hc : Leaves p starts labels n c) {a : Atom} (ha : a ∈ c.args) : ¬ Late p labels n a := by
  rintro ⟨u, i, l, rfl, hn, hl, ht⟩
  have hi := (Array.getElem?_eq_some_iff.mp hl).1
  obtain ⟨j, m, hj, hm, hmt⟩ := hu.early hc ha ⟨i, l, hi, hl, ht⟩
  have := hu.once hl hm ht hmt
  omega

namespace Resolved

variable {s : Subst}

theorem apply_apply (h : Resolved p labels labels.size s) (a : Atom) :
    s.apply (s.apply a) = s.apply a := by
  refine (h.apply_of_not_late h id ?_).2
  rintro ⟨u, i, l, -, hle, hl, -⟩
  exact absurd (Array.getElem?_eq_some_iff.mp hl).1 (Nat.not_lt_of_le hle)

theorem apply_of_not_renamed (h : Resolved p labels labels.size s) {t : Temp}
    (ht : ¬ Renamed p labels labels.size t) : s.apply (.temp t) = .temp t := by
  have hnone : s.lookup t = none :=
    Option.eq_none_iff_forall_ne_some.mpr fun a ha => ht ((h.domain t).mp ⟨a, ha⟩)
  rw [Subst.apply, hnone, Option.getD_none]

end Resolved

/-- A label with a single predecessor maps its parameters to the arguments, as far as they are
renamed. -/
theorem Settles.lookup {names : Array Label} {l : Label} {s s' : Subst}
    (h : Settles p kind names l s s')
    {b : BlockId} {block : Block} (hkind : l.kind = .code b) (hblock : p.block b = .ok block)
    (hnodup : (named block.params).Nodup) {x : Pred} (hpreds : l.preds = [x]) :
    List.Forall₂ (fun t a => t.isWildcard = false → s'.lookup t = some (s.apply a)) block.params
      x.args := by
  cases h with
  | rename hkind' hblock' hpreds' hlen =>
    obtain rfl := LabelKind.code.inj (hkind.symm.trans hkind')
    obtain rfl := Except.ok.inj (hblock.symm.trans hblock')
    obtain ⟨rfl, -⟩ := List.cons.inj (hpreds.symm.trans hpreds')
    have hargs : block.params.length = (s.applyAll x.args).length := by
      simpa [Subst.applyAll] using hlen
    exact List.forall₂_map_right_iff.mp (Subst.forall₂_extendAll (s := s) hnodup hargs)
  | merge _ _ hmany => simp [hpreds] at hmany
  | other hnot => exact absurd hkind (hnot b)

/-- What the finished renaming makes of the parameters of a block. Those of a label with a single
predecessor stand for the same as the arguments that it passes, and any others for themselves. -/
def Label.Resolves (p : Program) (g : FlowGraph) (l : Label) : Prop :=
  ∀ b, l.kind = .code b → ∃ block, p.block b = .ok block ∧
    (∀ x, l.preds = [x] → List.Forall₂ (fun t a => t.isWildcard = false →
      g.renames.apply (.temp t) = g.renames.apply a) block.params x.args) ∧
    (l.preds.length ≠ 1 → ∀ t ∈ block.params, g.renames.apply (.temp t) = .temp t)

namespace Drawn

variable {small : Nat} {functions : List (BlockId × List Temp)} {next next' : Nat}

/-- The parameters of a label that does not rename them are renamed by no other label either. -/
theorem not_renamed (h : Drawn p small functions next g next') (hseparate : p.Separate) {l : Label}
    (hl : l ∈ g.labels) {b : BlockId} {block : Block} (hkind : l.kind = .code b)
    (hblock : p.block b = .ok block) (hmany : l.preds.length ≠ 1) {t : Temp}
    (ht : t ∈ block.params) : ¬ Renamed p g.labels g.labels.size t := by
  rintro ⟨j, m, -, hm, hmt⟩
  obtain ⟨i, hi⟩ := Array.mem_iff_getElem?.mp hl
  obtain ⟨b', block', hkind', hone, hblock', ht'⟩ := hmt
  have htakes : l.Takes p t := ⟨b, block, hkind, hblock, mem_named.mpr ⟨ht, (mem_named.mp ht').2⟩⟩
  obtain rfl := h.takes_unique hseparate hi hm htakes ⟨b', block', hkind', hblock', ht'⟩
  obtain rfl := Option.mem_unique hi hm
  exact hmany hone

theorem resolves (h : Drawn p small functions next g next') (hseparate : p.Separate)
    (hu : Untangled p starts g.labels)
    (hblocks : ∀ b, .block b ∈ p.defns → ∃ block, p.block b = .ok block ∧
      (named block.params).Nodup) :
    (∀ l ∈ g.labels, l.Resolves p g) ∧ ∀ a, g.renames.apply (g.renames.apply a) = g.renames.apply
      a := by
  obtain ⟨calls, -, -, hrun⟩ := h.calls
  obtain ⟨hfinal, names, -, hall⟩ := resolved_of_graph hrun hu
  refine ⟨fun l hl b hkind => ?_, hfinal.apply_apply⟩
  obtain ⟨i, hi⟩ := Array.mem_iff_getElem?.mp hl
  obtain ⟨s1, s2, hsettles, hs1, hextends1, hextends2⟩ := hall hi
  obtain ⟨block, hblock, hnodup⟩ := hblocks b (h.mem_defns hl hkind)
  refine ⟨block, hblock, fun x hpreds => ?_, fun hmany t ht =>
    hfinal.apply_of_not_renamed (h.not_renamed hseparate hl hkind hblock hmany ht)⟩
  have hlookup := List.forall₂_iff_zip.mp (hsettles.lookup hkind hblock hnodup hpreds)
  refine List.forall₂_iff_zip.mpr ⟨hlookup.1, fun {t a} hta ht => ?_⟩
  -- The predecessor comes first, so its arguments are renamed already as far as they will be.
  obtain ⟨_, rest, hsplit, c, hc, -, hcargs⟩ := hu.preds hi
  obtain ⟨rfl, -⟩ := List.cons.inj (hpreds.symm.trans hsplit)
  have hearly := hu.not_late hc (hcargs ▸ (List.of_mem_zip hta).2)
  rw [Subst.apply, hextends2 (hlookup.2 hta ht), Option.getD_some,
    (hs1.apply_of_not_late hfinal hextends1 hearly).1]

end Drawn

end FlowGraph

namespace Edit

/-- The renamings in the graphs of a checked program whose definitions have variables of their own. -/
theorem flowGraphs_resolve (p : Program) (small : Nat) (hcheck : p.check = .ok ())
    (hcurrent : p.Current) (hseparate : p.Separate) (htable : p.InTable) :
    ∃ gs q, flowGraphs small p = .ok gs q ∧ ∀ g ∈ gs, (∀ l ∈ g.labels, l.Resolves p g) ∧
      ∀ a, g.renames.apply (g.renames.apply a) = g.renames.apply a := by
  obtain ⟨gs, m, hrun, hall⟩ := exists_untangled hcheck hcurrent hseparate htable
  refine ⟨gs, _, hrun, fun g hg => ?_⟩
  obtain ⟨functions, next, next', starts, hdrawn, hu⟩ := hall g hg
  have hseparate' : Program.Separate { p with temps := m } := ⟨hseparate.reads, hseparate.apart⟩
  refine hdrawn.resolves hseparate' hu fun b hb => ?_
  obtain ⟨block, hblock, hnodup, -⟩ :=
    Program.checkDefn_block.mp (Program.checkAll_eq_ok_iff.mp hcheck _ hb)
  exact ⟨block, Program.block_eq_ok_iff.mpr hblock, hnodup⟩

end Edit

/-- A parameter and a word change places on their way to a block that two branches lead to. -/
def swapped : Program where
  temps := ⟨.replicate 7 none⟩
  blocks := #[
    { params := [⟨1⟩]
      code := .jump ⟨⟨1⟩, [.temp ⟨1⟩, .word 7]⟩ },
    { params := [⟨2⟩, ⟨3⟩]
      code := .jump ⟨⟨2⟩, [.temp ⟨3⟩, .temp ⟨2⟩]⟩ },
    { params := [⟨4⟩, .wildcard]
      code := .bind [⟨5⟩] (.prim .eq [.temp ⟨4⟩, .word 0])
        (.branch (.temp ⟨5⟩) ⟨⟨3⟩, [.temp ⟨4⟩]⟩ ⟨⟨3⟩, [.word 1]⟩) },
    { params := [⟨6⟩]
      code := .done (.ret [.temp ⟨6⟩]) }]
  entrypoints := [.block ⟨0⟩]

namespace Edit

theorem flowGraphs_resolve_swapped : ∃ w gs q, swapped.shake = .ok () w ∧ w.program.check = .ok () ∧
    w.program.Current ∧ w.program.Separate ∧ w.program.InTable ∧
    flowGraphs 4 w.program = .ok gs q ∧
    gs.map (fun g => g.labels.toList.map fun l => l.preds.length) = [[1, 1, 1, 2, 1]] ∧
    gs.map (fun g => [⟨1⟩, ⟨2⟩, ⟨3⟩, ⟨4⟩, ⟨6⟩].map fun t => g.renames.apply (.temp t)) =
      [[.temp ⟨7⟩, .temp ⟨7⟩, .word 7, .word 7, .temp ⟨6⟩]] ∧
    ∀ g ∈ gs, (∀ l ∈ g.labels, l.Resolves w.program g) ∧
      ∀ a, g.renames.apply (g.renames.apply a) = g.renames.apply a := by
  obtain ⟨⟨⟩, w, hshake, htest⟩ := exists_ok (r := swapped.shake)
    (fun _ w => w.program.check == .ok () && decide w.program.Separate && decide w.program.InTable)
      (by cbv)
  simp only [Bool.and_eq_true, beq_iff_eq, decide_eq_true_eq, and_assoc] at htest
  obtain ⟨hcheck, hseparate, htable⟩ := htest
  have hcurrent := (Program.upToDate_of_shake hshake).1.current
  obtain ⟨gs, q, hrun, hgraphs⟩ := exists_ok (r := flowGraphs 4 (endState swapped.shake).program)
    (fun gs _ => gs.map (fun g => g.labels.toList.map fun l => l.preds.length) ==
      [[1, 1, 1, 2, 1]] &&
      gs.map (fun g => [⟨1⟩, ⟨2⟩, ⟨3⟩, ⟨4⟩, ⟨6⟩].map fun t => g.renames.apply (.temp t)) ==
        [[.temp ⟨7⟩, .temp ⟨7⟩, .word 7, .word 7, .temp ⟨6⟩]]) (by cbv)
  rw [hshake] at hrun
  simp only [Bool.and_eq_true, beq_iff_eq] at hgraphs
  obtain ⟨gs', q', hrun', hresolves⟩ := flowGraphs_resolve w.program 4 hcheck hcurrent hseparate
    htable
  obtain ⟨rfl, rfl⟩ := EStateM.Result.ok.inj (hrun.symm.trans hrun')
  exact ⟨w, gs, q, hshake, hcheck, hcurrent, hseparate, htable, hrun, hgraphs.1, hgraphs.2,
    hresolves⟩

end Edit

end MonadicIR
