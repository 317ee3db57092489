import MonadicIR.Proofs.Checked
import MonadicIR.Proofs.GraphShape

namespace MonadicIR

open List

namespace FlowGraph

variable {p : Program} {included : List BlockId} {starts : List Call}

/-- Does the call leave the start, or the code of one of the first labels? -/
def Leaves (p : Program) (starts : List Call) (labels : Array Label) (n : Nat) (c : Call) : Prop :=
  c ∈ starts ∨ ∃ (j : Nat) (l : Label) (b : BlockId) (block : Block), j < n ∧ labels[j]? = some l ∧
    l.kind = .code b ∧ p.block b = .ok block ∧ c ∈ block.code.endCalls

/-- May an edge for the call lead to such a label? -/
def LabelKind.Takes : LabelKind → Call → Prop
  | code b, c => c.target = b
  | call c', c => c' = c
  | goto _, _ => True

/-- Are the arguments passed by a call that leads to such a label? -/
def Passes (p : Program) (starts : List Call) (labels : Array Label) (n : Nat) (kind : LabelKind)
    (args : List Atom) : Prop :=
  ∃ c, Leaves p starts labels n c ∧ kind.Takes c ∧ c.args = args

/-- Code is that of included blocks, and each label is entered by calls that lead to it, first from
the start or from an earlier label. -/
structure Traced (p : Program) (included : List BlockId) (starts : List Call)
    (labels : Array Label) : Prop where
  code : ∀ {i : Nat} {l : Label} {b : BlockId}, labels[i]? = some l → l.kind = .code b →
    b ∈ included
  preds : ∀ {i : Nat} {l : Label}, labels[i]? = some l → ∃ pred rest, l.preds = pred :: rest ∧
    Passes p starts labels i l.kind pred.args ∧
      ∀ x ∈ rest, Passes p starts labels labels.size l.kind x.args

namespace Draft

variable {d d' : Draft} {n n' : Nat} {c : Call}

theorem KeepsKinds.leaves (h : KeepsKinds d d') (hn : n ≤ n') (hc : Leaves p starts d.labels n c) :
    Leaves p starts d'.labels n' c := by
  obtain hstart | ⟨j, l, b, block, hj, hl, hkind, hblock, hmem⟩ := hc
  · exact .inl hstart
  · obtain ⟨l', hl', hkind'⟩ := h hl
    exact .inr ⟨j, l', b, block, lt_of_lt_of_le hj hn, hl', hkind'.trans hkind, hblock, hmem⟩

theorem KeepsKinds.passes (h : KeepsKinds d d') (hn : n ≤ n') {kind : LabelKind} {args : List Atom}
    (hargs : Passes p starts d.labels n kind args) : Passes p starts d'.labels n' kind args := by
  obtain ⟨c, hc, htakes, rfl⟩ := hargs
  exact ⟨c, h.leaves hn hc, htakes, rfl⟩

/-- The ways in which a draft grows. -/
inductive Grows (p : Program) (included : List BlockId) (starts : List Call) : Draft → Draft → Prop
  | label {d : Draft} {kind : LabelKind} {s : Source} {c : Call} :
      Leaves p starts d.labels d.labels.size c → kind.Takes c →
        (∀ b, kind = .code b → b ∈ included) →
      Grows p included starts d (d.addLabel kind ⟨s, c.args⟩).2
  | pred {d : Draft} {target : Nat} {l : Label} {s : Source} {c : Call} :
      Leaves p starts d.labels d.labels.size c → d.labels[target]? = some l → l.kind.Takes c →
      Grows p included starts d (d.addPred target ⟨s, c.args⟩)
  | succs {d : Draft} {i : Nat} {succs : List Nat} : Grows p included starts d (d.setSuccs i succs)

abbrev GrowsTo (p : Program) (included : List BlockId) (starts : List Call) :
    Draft → Draft → Prop :=
  Relation.ReflTransGen (Grows p included starts)

theorem addLabel_kinds (d : Draft) (kind : LabelKind) (pred : Pred) :
    KeepsKinds d (d.addLabel kind pred).2 :=
  fun _ _ hl => ⟨_, getElem?_addLabel.mpr (.inl hl), rfl⟩

theorem addPred_kinds (d : Draft) (target : Nat) (pred : Pred) :
    KeepsKinds d (d.addPred target pred) := by
  intro i l hl
  obtain ⟨l', hl', hkind, -⟩ := addPred_kept target pred hl
  exact ⟨l', hl', hkind⟩

theorem Grows.kinds (h : Grows p included starts d d') : KeepsKinds d d' := by
  cases h with
  | label => exact addLabel_kinds ..
  | pred => exact addPred_kinds ..
  | succs => exact setSuccs_kinds ..

theorem GrowsTo.kinds (h : GrowsTo p included starts d d') : KeepsKinds d d' := by
  induction h with
  | refl => exact fun _ l hl => ⟨l, hl, rfl⟩
  | tail _ hstep ih => exact ih.trans hstep.kinds

theorem edge_grows (s : Source) (hc : Leaves p starts d.labels d.labels.size c) :
    GrowsTo p included starts d (d.edge included s c).2 := by
  unfold edge
  split
  · rename_i hmem
    rw [contains_iff_mem] at hmem
    split
    · refine .single (.label hc rfl ?_)
      rintro _ ⟨⟩
      exact hmem
    · rename_i target hfor
      obtain ⟨l, hl, hkind⟩ := labelFor?_eq_some hfor
      have htakes : l.kind.Takes c := by rw [hkind]; rfl
      split
      · have hgrown := addLabel_kinds d (.goto target) ⟨s, c.args⟩
        have hgoto : Grows p included starts d (d.addLabel (.goto target) ⟨s, c.args⟩).2 :=
          .label hc trivial (by simp)
        exact .tail (.single hgoto)
          (.pred (hgrown.leaves hgrown.size_le hc) (getElem?_addLabel.mpr (.inl hl)) htakes)
      · exact .single (.pred hc hl htakes)
  · exact .single (.label hc rfl (by simp))

theorem edges_grows (s : Source) {cs : List Call}
    (hcs : ∀ c ∈ cs, Leaves p starts d.labels d.labels.size c) :
    GrowsTo p included starts d (Draft.edges included s d cs).2 := by
  induction cs generalizing d with
  | nil => exact .refl
  | cons c cs ih =>
    rw [forall_mem_cons] at hcs
    have hfirst : GrowsTo p included starts d (d.edge included s c).2 := edge_grows s hcs.1
    have hkinds := hfirst.kinds
    exact hfirst.trans (ih fun c' hc' => hkinds.leaves hkinds.size_le (hcs.2 c' hc'))

theorem findSuccs_grows {fuel i : Nat} (hrun : d.findSuccs p included fuel i = .ok d') :
    GrowsTo p included starts d d' := by
  induction fuel generalizing d i with
  | zero =>
    obtain rfl := Except.ok.inj hrun
    exact .refl
  | succ fuel ih =>
    rw [findSuccs] at hrun
    split at hrun
    · obtain rfl := Except.ok.inj hrun
      exact .refl
    · rename_i l hl
      split at hrun
      · rename_i b hkind
        obtain ⟨block, hblock, hrun⟩ := bind_eq_ok_iff.mp hrun
        have hi := (Array.getElem?_eq_some_iff.mp hl).1
        refine (edges_grows (.label i) fun c hc => ?_).trans (.head .succs (ih hrun))
        exact .inr ⟨i, l, b, block, hi, hl, hkind, hblock, hc⟩
      · exact .head .succs (ih hrun)
      · exact ih hrun

end Draft

namespace Draft

variable {d d' : Draft}

theorem traced_empty (next : Nat) : Traced p included starts (⟨next, #[]⟩ : Draft).labels :=
  ⟨by simp, by simp⟩

theorem KeepsKinds.traced (h : KeepsKinds d d') (ht : Traced p included starts d.labels)
    (hold : ∀ {i : Nat} {l' : Label}, d'.labels[i]? = some l' →
      ∃ l, d.labels[i]? = some l ∧ l'.kind = l.kind ∧ l'.preds = l.preds) :
    Traced p included starts d'.labels := by
  refine ⟨fun hl' hb => ?_, fun hl' => ?_⟩
  · obtain ⟨l, hl, hkind, -⟩ := hold hl'
    exact ht.code hl (hkind ▸ hb)
  · obtain ⟨l, hl, hkind, hpreds⟩ := hold hl'
    obtain ⟨first, rest, hsplit, hfirst, hrest⟩ := ht.preds hl
    rw [hkind, hpreds]
    exact ⟨first, rest, hsplit, h.passes le_rfl hfirst,
      fun x hx => h.passes h.size_le (hrest x hx)⟩

theorem Grows.traced (h : Grows p included starts d d') (ht : Traced p included starts d.labels) :
    Traced p included starts d'.labels := by
  have hkinds := h.kinds
  have hold {i : Nat} {l : Label} (hl : d.labels[i]? = some l) : ∃ pred rest,
    l.preds = pred :: rest ∧
      Passes p starts d'.labels i l.kind pred.args ∧
        ∀ x ∈ rest, Passes p starts d'.labels d'.labels.size l.kind x.args := by
    obtain ⟨pred, rest, hpreds, hfirst, hrest⟩ := ht.preds hl
    exact ⟨pred, rest, hpreds, hkinds.passes (Nat.le_refl i) hfirst,
      fun x hx => hkinds.passes hkinds.size_le (hrest x hx)⟩
  cases h with
  | label hc htakes hcode =>
    refine ⟨fun hl hb => ?_, fun hl => ?_⟩
    · obtain hl | ⟨rfl, rfl⟩ := getElem?_addLabel.mp hl
      · exact ht.code hl hb
      · exact hcode _ hb
    · obtain hl | ⟨rfl, rfl⟩ := getElem?_addLabel.mp hl
      · exact hold hl
      · exact ⟨_, [], rfl, ⟨_, hkinds.leaves le_rfl hc, htakes, rfl⟩, by simp⟩
  | pred hc htarget htakes =>
    refine ⟨fun hl' hb => ?_, fun hl' => ?_⟩
    · obtain ⟨l, hl, hkind, -⟩ := addPred_old hl'
      exact ht.code hl (hkind ▸ hb)
    · obtain ⟨l, hl, rfl⟩ := getElem?_addPred.mp hl'
      obtain ⟨first, rest, hpreds, hfirst, hrest⟩ := hold hl
      split
      · subst_vars
        obtain rfl := Option.mem_unique hl htarget
        refine ⟨first, rest ++ [_], by rw [hpreds]; rfl, hfirst, ?_⟩
        refine forall_mem_append.mpr ⟨hrest, forall_mem_singleton.mpr ?_⟩
        exact ⟨_, hkinds.leaves hkinds.size_le hc, htakes, rfl⟩
      · exact ⟨first, rest, hpreds, hfirst, hrest⟩
  | succs => exact hkinds.traced ht setSuccs_old

/-- Labels are numbered in order, and the next number is the next one. -/
structure Numbered (first : Nat) (d : Draft) : Prop where
  next : d.next = first + d.labels.size
  num : ∀ {i : Nat} {l : Label}, d.labels[i]? = some l → l.num = first + i

theorem numbered_empty (next : Nat) : Numbered next ⟨next, #[]⟩ := ⟨rfl, by simp⟩

theorem Grows.numbered (h : Grows p included starts d d') {first : Nat} (hn : d.Numbered first) :
    d'.Numbered first := by
  cases h with
  | label =>
    refine ⟨by simp [addLabel, hn.next, Nat.add_assoc], fun hl => ?_⟩
    obtain hl | ⟨rfl, rfl⟩ := getElem?_addLabel.mp hl
    · exact hn.num hl
    · exact hn.next
  | pred =>
    refine ⟨by simp [addPred, hn.next], fun hl' => ?_⟩
    obtain ⟨l, hl, rfl⟩ := getElem?_addPred.mp hl'
    rw [← hn.num hl]
    split <;> rfl
  | succs =>
    refine ⟨by simp [setSuccs, hn.next], fun hl' => ?_⟩
    obtain ⟨l, hl, rfl⟩ := getElem?_setSuccs.mp hl'
    rw [← hn.num hl]
    split <;> rfl

theorem GrowsTo.traced (h : GrowsTo p included starts d d')
    (ht : Traced p included starts d.labels) : Traced p included starts d'.labels := by
  induction h with
  | refl => exact ht
  | tail _ hstep ih => exact hstep.traced ih

theorem GrowsTo.numbered (h : GrowsTo p included starts d d') {first : Nat}
    (hn : d.Numbered first) : d'.Numbered first := by
  induction h with
  | refl => exact hn
  | tail _ hstep ih => exact hstep.numbered ih

theorem exists_findSuccs (hblocks : ∀ b ∈ included, ∃ block, p.block b = .ok block) {fuel i : Nat}
    (ht : Traced p included starts d.labels) : ∃ d', d.findSuccs p included fuel i = .ok d' := by
  induction fuel generalizing d i with
  | zero => exact ⟨d, rfl⟩
  | succ fuel ih =>
    rw [findSuccs]
    split
    · exact ⟨d, rfl⟩
    · rename_i l hl
      split
      · rename_i b hkind
        obtain ⟨block, hblock⟩ := hblocks b (ht.code hl hkind)
        have hi := (Array.getElem?_eq_some_iff.mp hl).1
        have hgrows : GrowsTo p included starts d
            (Draft.edges included (.label i) d block.code.endCalls).2 :=
          edges_grows (.label i) fun c hc => .inr ⟨i, l, b, block, hi, hl, hkind, hblock, hc⟩
        rw [hblock]
        exact ih (Grows.succs.traced (hgrows.traced ht))
      · exact ih (Grows.succs.traced ht)
      · exact ih ht

end Draft

section Params

variable {kind : Kind} {labels : Array Label} {b : BlockId} {arity : Nat}

theorem exists_phi {renames : Subst} {j : Nat} {param : Temp} {preds : List Pred}
    (h : ∀ x ∈ preds, j < x.args.length) :
    ∃ merged, phi kind labels renames b arity j param preds = .ok merged := by
  induction preds with
  | nil => exact ⟨_, rfl⟩
  | cons x preds ih =>
    rw [forall_mem_cons] at h
    obtain ⟨rest, hrest⟩ := ih h.2
    rw [phi, getElem?_eq_getElem h.1]
    exact ⟨_, bind_eq_ok_iff.mpr ⟨rest, hrest, rfl⟩⟩

theorem exists_phis {renames : Subst} {j : Nat} {params : List Temp} {preds : List Pred}
    (h : ∀ x ∈ preds, x.args.length = j + params.length) :
    ∃ merged, phis kind labels renames b preds arity j params = .ok merged := by
  induction params generalizing j with
  | nil => exact ⟨_, rfl⟩
  | cons param params ih =>
    have hrest : ∀ x ∈ preds, x.args.length = j + 1 + params.length := fun x hx => by
      rw [h x hx, length_cons, Nat.add_right_comm, Nat.add_assoc]
    obtain ⟨rest, hrest⟩ := ih hrest
    rw [phis]
    split
    · exact ⟨rest, hrest⟩
    · obtain ⟨first, hfirst⟩ : ∃ first, phi kind labels renames b arity j param preds = .ok first :=
        exists_phi fun x hx => by simp [h x hx]
      exact ⟨_, bind_eq_ok_iff.mpr ⟨first, hfirst, bind_eq_ok_iff.mpr ⟨rest, hrest, rfl⟩⟩⟩

/-- Parameters can be eliminated where every predecessor passes an argument for each of them. -/
theorem exists_eliminateParams {ls : List Label}
    (h : ∀ l ∈ ls, ∀ b, l.kind = .code b → ∃ block, p.block b = .ok block ∧
      ∀ x ∈ l.preds, x.args.length = block.params.length) (renames : Subst) :
    ∃ r, eliminateParams p kind labels ls renames = .ok r := by
  induction ls generalizing renames with
  | nil => exact ⟨_, rfl⟩
  | cons l ls ih =>
    rw [forall_mem_cons] at h
    have hrest (l' : Label) (renames' : Subst) :
        ∃ r, (eliminateParams p kind labels ls renames' >>= fun r =>
          (pure (l' :: r.1, r.2) : Except Fault (List Label × Subst))) = .ok r := by
      obtain ⟨r, hr⟩ := ih h.2 renames'
      exact ⟨_, bind_eq_ok_iff.mpr ⟨r, hr, rfl⟩⟩
    rw [eliminateParams]
    split
    · rename_i b hkind
      obtain ⟨block, hblock, hargs⟩ := h.1 b hkind
      rw [hblock]
      dsimp only [bind, Except.bind]
      split
      · rename_i x hpreds
        have hlen : block.params.length = (renames.applyAll x.args).length := by
          simp [Subst.applyAll, hargs x (by simp [hpreds])]
        rw [Subst.bind, if_pos hlen]
        exact hrest l _
      · obtain ⟨merged, hmerged⟩ : ∃ merged,
            phis kind labels renames b l.preds block.params.length 0 block.params = .ok merged :=
          exists_phis fun x hx => by simp [hargs x hx]
        rw [hmerged]
        exact hrest _ renames
    · exact hrest l renames

end Params

def numbers (g : FlowGraph) : List Nat := g.num :: g.labels.toList.map Label.num

variable {kind : Kind} {calls : List Call} {next next' : Nat} {g : FlowGraph}

/-- What a graph is made of: a draft that has been finished, and its parameters eliminated. -/
theorem graph_eq_ok (hrun : graph p kind included calls next = .ok (g, next')) :
    ∃ (d : Draft) (labels : List Label), Traced p included calls d.labels ∧
      d.Numbered (next + 1) ∧ d.next = next' ∧
      eliminateParams p kind d.labels d.labels.toList {} = .ok (labels, g.renames) ∧
      g.num = next ∧ g.kind = kind ∧ g.included = included ∧ g.labels = labels.toArray := by
  obtain ⟨d, hfind, ⟨labels, renames⟩, hparams, hrun⟩ : ∃ d,
      (Draft.edges included .entry ⟨next + 1, #[]⟩ calls).2.findSuccs p included
        (labelBound p included calls + 1) 0 = .ok d ∧ _ := by
    simpa only [graph, bind_eq_ok_iff] using hrun
  obtain ⟨rfl, rfl⟩ := Prod.mk.inj (Except.ok.inj hrun)
  have hgrows : Draft.GrowsTo p included calls ⟨next + 1, #[]⟩ d :=
    (Draft.edges_grows .entry fun c hc => .inl hc).trans (Draft.findSuccs_grows hfind)
  exact ⟨d, labels, hgrows.traced (Draft.traced_empty _), hgrows.numbered (Draft.numbered_empty _),
    rfl, hparams, rfl, rfl, rfl, rfl⟩

theorem graph_traced (hrun : graph p kind included calls next = .ok (g, next')) :
    Traced p included calls g.labels := by
  obtain ⟨d, labels, ht, -, -, hparams, -, -, -, hlabels⟩ := graph_eq_ok hrun
  have hsame (i : Nat) : d.labels[i]? = none ∧ g.labels[i]? = none ∨
      ∃ l phis, d.labels[i]? = some l ∧ g.labels[i]? = some { l with phis } := by
    have hat := getElem?_of_forall₂ (eliminateParams_labels hparams) i
    rw [Array.getElem?_toList, ← getElem?_toArray, ← hlabels] at hat
    obtain hnone | ⟨l, _, hl, hl', phis, rfl⟩ := hat
    · exact .inl hnone
    · exact .inr ⟨l, phis, hl, hl'⟩
  have hkinds : Draft.KeepsKinds ⟨0, d.labels⟩ ⟨0, g.labels⟩ := by
    intro i l hl
    obtain ⟨hnone, -⟩ | ⟨l', phis, hl', hg⟩ := hsame i
    · rw [hl] at hnone
      cases hnone
    · obtain rfl := Option.mem_unique hl hl'
      exact ⟨_, hg, rfl⟩
  refine hkinds.traced ht fun {i l'} hl' => ?_
  obtain ⟨-, hnone⟩ | ⟨l, phis, hl, hg⟩ := hsame i
  · exact absurd (hl'.symm.trans hnone) (by simp)
  · obtain rfl := Option.mem_unique hl' hg
    exact ⟨l, hl, rfl, rfl⟩

theorem graph_numbers (hrun : graph p kind included calls next = .ok (g, next')) :
    ∃ n, next' = next + n ∧ g.numbers = range' next n := by
  obtain ⟨d, labels, -, hnumbered, rfl, hparams, hnum, -, -, hlabels⟩ := graph_eq_ok hrun
  have hkept {ls ls' : List Label} (h : List.Forall₂ (fun l l' => ∃ phis, l' = { l with phis }) ls
    ls') :
      ls'.map Label.num = ls.map Label.num := by
    induction h with
    | nil => rfl
    | cons h _ ih =>
      obtain ⟨phis, rfl⟩ := h
      rw [map_cons, map_cons, ih]
  have hrange : d.labels.toList.map Label.num = range' (next + 1) d.labels.size := by
    refine ext_getElem (by simp) fun i hi _ => ?_
    rw [getElem_map, getElem_range', Nat.one_mul]
    exact hnumbered.num (Array.getElem?_eq_some_iff.mpr ⟨by simpa using hi, by simp⟩)
  refine ⟨d.labels.size + 1, by rw [hnumbered.next, Nat.add_right_comm, Nat.add_assoc], ?_⟩
  rw [numbers, hnum, hlabels, hkept (eliminateParams_labels hparams), hrange, range'_succ]

/-- A graph can be made if each included block is there, and all jumps pass on as many arguments as
are expected. -/
theorem exists_graph (hblocks : ∀ b ∈ included, ∃ block, p.block b = .ok block ∧
      ∀ c ∈ block.code.endCalls, p.checkShape (.call c) = .ok ())
    (hcalls : ∀ c ∈ calls, p.checkShape (.call c) = .ok ()) :
    ∃ g next', graph p kind included calls next = .ok (g, next') := by
  have hstart : Draft.GrowsTo p included calls ⟨next + 1, #[]⟩
      (Draft.edges included .entry ⟨next + 1, #[]⟩ calls).2 :=
    Draft.edges_grows .entry fun c hc => .inl hc
  obtain ⟨d, hfind⟩ : ∃ d, (Draft.edges included .entry ⟨next + 1, #[]⟩ calls).2.findSuccs p
    included
      (labelBound p included calls + 1) 0 = .ok d :=
    Draft.exists_findSuccs (fun b hb => (hblocks b hb).imp fun _ => And.left)
      (hstart.traced (Draft.traced_empty _))
  have hgrows : Draft.GrowsTo p included calls ⟨next + 1, #[]⟩ d :=
    hstart.trans (Draft.findSuccs_grows hfind)
  have ht := hgrows.traced (Draft.traced_empty _)
  have hshape {n : Nat} {c : Call} (hc : Leaves p calls d.labels n c) :
      p.checkShape (.call c) = .ok () := by
    obtain hc | ⟨j, l, b, block, -, hl, hkind, hblock, hc⟩ := hc
    · exact hcalls c hc
    · obtain ⟨block', hblock', hshape⟩ := hblocks b (ht.code hl hkind)
      obtain rfl := Except.ok.inj (hblock.symm.trans hblock')
      exact hshape c hc
  obtain ⟨⟨labels, renames⟩, hparams⟩ : ∃ r, eliminateParams p kind d.labels d.labels.toList
    {} = .ok r := by
    refine exists_eliminateParams (fun l hl b hkind => ?_) {}
    obtain ⟨i, hi⟩ := mem_iff_getElem?.mp hl
    rw [Array.getElem?_toList] at hi
    obtain ⟨block, hblock, -⟩ := hblocks b (ht.code hi hkind)
    have hpasses {n : Nat} {args : List Atom} (h : Passes p calls d.labels n l.kind args) :
        args.length = block.params.length := by
      obtain ⟨c, hc, htakes, rfl⟩ := h
      rw [hkind] at htakes
      obtain rfl : c.target = b := htakes
      obtain ⟨block', hblock', hlen⟩ := Program.checkShape_call.mp (hshape hc)
      obtain rfl := Except.ok.inj (hblock.symm.trans (Program.block_eq_ok_iff.mpr hblock'))
      exact hlen.symm
    obtain ⟨first, rest, hpreds, hfirst, hrest⟩ := ht.preds hi
    rw [hpreds]
    exact ⟨block, hblock, forall_mem_cons.mpr ⟨hpasses hfirst, fun x hx => hpasses (hrest x hx)⟩⟩
  exact ⟨_, _, bind_eq_ok_iff.mpr ⟨d, hfind, bind_eq_ok_iff.mpr ⟨_, hparams, rfl⟩⟩⟩

end FlowGraph

end MonadicIR
