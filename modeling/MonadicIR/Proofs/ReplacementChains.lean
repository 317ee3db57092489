import MonadicIR.Proofs.Merging
import MonadicIR.Proofs.Throughout

namespace MonadicIR

section EndsAt

variable {α : Type}

/-- The notes lead from the first definition to the second one in so many steps, and end there. -/
inductive EndsAt (note : α → Option α) : Nat → α → α → Prop
  | stop {a} : note a = none → EndsAt note 0 a a
  | step {n a b c} : note a = some b → EndsAt note n b c → EndsAt note (n + 1) a c

/-- From every definition the notes come to an end. -/
def Terminates (note : α → Option α) : Prop := ∀ a, ∃ n c, EndsAt note n a c

variable {note : α → Option α} {n m : Nat} {a c d : α}

theorem EndsAt.unique (h : EndsAt note n a c) (h' : EndsAt note m a d) : n = m ∧ c = d := by
  induction h generalizing m with
  | stop ha =>
    cases h' with
    | stop _ => exact ⟨rfl, rfl⟩
    | step hb _ => cases ha.symm.trans hb
  | step hb _ ih =>
    cases h' with
    | stop ha => cases ha.symm.trans hb
    | step hb' h' =>
      cases hb.symm.trans hb'
      obtain ⟨rfl, rfl⟩ := ih h'
      exact ⟨rfl, rfl⟩

/-- On its way a walk meets as many definitions with a note as it makes steps, all different: each
is a different number of steps from the end. -/
theorem EndsAt.visits (h : EndsAt note n a c) :
    ∃ l : List α, l.length = n ∧ l.Nodup ∧ ∀ x ∈ l, note x ≠ none ∧ ∃ m ≤ n, EndsAt note m x c := by
  induction h with
  | stop ha => exact ⟨[], rfl, .nil, by simp⟩
  | @step n a b c hb h ih =>
    obtain ⟨l, rfl, hnodup, hl⟩ := ih
    refine ⟨a :: l, rfl, List.nodup_cons.mpr ⟨fun ha => ?_, hnodup⟩, fun x hx => ?_⟩
    · obtain ⟨-, m, hm, hfrom⟩ := hl a ha
      have := (hfrom.unique (h.step hb)).1
      omega
    · obtain rfl | hx := List.mem_cons.mp hx
      · exact ⟨by simp [hb], _, Nat.le_refl _, h.step hb⟩
      · obtain ⟨hx, m, hm, hfrom⟩ := hl x hx
        exact ⟨hx, m, Nat.le_succ_of_le hm, hfrom⟩

theorem EndsAt.length_le (h : EndsAt note n a c) {ids : List α}
    (hids : ∀ x, note x ≠ none → x ∈ ids) : n ≤ ids.length := by
  obtain ⟨l, rfl, hnodup, hl⟩ := h.visits
  exact (hnodup.subperm fun x hx => hids x (hl x hx).1).length_le

variable [DecidableEq α]

/-- A note that is written anew leads nowhere, or to another definition without a note. -/
theorem Terminates.update (h : Terminates note) {r : Option α}
    (hr : ∀ c, r = some c → c ≠ a ∧ note c = none) : Terminates (Function.update note a r) := by
  have hself : ∃ n c, EndsAt (Function.update note a r) n a c := by
    cases r with
    | none => exact ⟨0, a, .stop (Function.update_self ..)⟩
    | some c =>
      obtain ⟨hne, hc⟩ := hr c rfl
      exact ⟨1, c, .step (Function.update_self ..) (.stop (by rwa [Function.update_of_ne hne]))⟩
  intro b
  obtain ⟨n, c, hb⟩ := h b
  -- A walk as before, up to where it meets the new note.
  induction hb with
  | @stop b hb =>
    by_cases hba : b = a
    · exact hba ▸ hself
    · exact ⟨0, b, .stop (by rwa [Function.update_of_ne hba])⟩
  | @step n b _ c hb _ ih =>
    by_cases hba : b = a
    · exact hba ▸ hself
    · obtain ⟨m, d, hd⟩ := ih
      exact ⟨m + 1, d, .step (by rwa [Function.update_of_ne hba]) hd⟩

theorem follow_of_endsAt {fuel : Nat} (h : EndsAt note n a c) (hfuel : n ≤ fuel) :
    follow note fuel a = c := by
  induction h generalizing fuel with
  | stop ha => exact follow_of_none ha fuel
  | @step n a b c hb h ih =>
    obtain ⟨fuel, rfl⟩ := Nat.exists_eq_add_of_le' (Nat.le_trans (Nat.le_add_left 1 n) hfuel)
    have hne : b ≠ a := by
      rintro rfl
      exact n.succ_ne_self ((h.step hb).unique h).1
    rw [follow, hb, Option.elim_some, if_neg hne]
    exact ih (Nat.le_of_succ_le_succ hfuel)

/-- Where the notes come to an end, the search with so much fuel finds it, and more is of no use. -/
theorem Terminates.found (h : Terminates note) {ids : List α} (hids : ∀ x, note x ≠ none → x ∈ ids)
    (a : α) : ∃ n ≤ ids.length, EndsAt note n a (follow note (ids.length + 1) a) ∧
      ∀ fuel ≥ n, follow note fuel a = follow note (ids.length + 1) a := by
  obtain ⟨n, c, hc⟩ := h a
  have hn := hc.length_le hids
  rw [follow_of_endsAt hc (Nat.le_succ_of_le hn)]
  exact ⟨n, hn, hc, fun fuel hfuel => follow_of_endsAt hc hfuel⟩

end EndsAt

namespace Pass

variable {α β : Type} {I : Program → Prop} {x : Pass α} {f : α → Pass β} {s : Workbench}

theorem endState_bind_pure (g : α → β) : endState ((x >>= fun a => pure (g a)) s) = endState
    (x s) := by
  rw [endState_bind]
  cases x s <;> rfl

/-- A property of programs that the action keeps, also if it fails. -/
def Preserves (I : Program → Prop) (x : Pass α) : Prop :=
  ∀ s, I s.program → I (endState (x s)).program

namespace Preserves

theorem after (hx : I (endState (x s)).program) (hf : ∀ a, Preserves I (f a)) :
    I (endState ((x >>= f) s)).program := by
  rw [endState_bind]
  cases hres : x s with
  | ok a s' =>
    rw [hres] at hx
    exact hf a s' hx
  | error e s' =>
    rw [hres] at hx
    exact hx

protected theorem bind (hx : Preserves I x) (hf : ∀ a, Preserves I (f a)) : Preserves I (x >>= f) :=
  fun s hs => after (hx s hs) hf

theorem of_same (h : ∀ s, (endState (x s)).program = s.program) : Preserves I x :=
  fun s hs => by rwa [h s]

theorem edit {e : Edit α} (h : ∀ p, I p → I (endState (e p))) : Preserves I (Pass.edit e) := by
  intro s hs
  rw [endState_edit]
  exact h _ hs

theorem look (f : Program → Except Fault α) : Preserves I (Pass.look f) := by
  refine edit fun p hp => ?_
  rw [Edit.read]
  cases f p <;> exact hp

end Preserves

end Pass

namespace Mergeable

variable {ι δ : Type} [DecidableEq ι] {M : Mergeable ι δ} {s : Workbench}

/-- A pass over different definitions keeps this, wherever it ends, and keeps what no note tells. -/
theorem terminates_pass {γ : Type} {f : Program → γ} (hf : ∀ p a x, f (M.set p a x) = f p)
    (h : Terminates (M.note s.program)) {as : List ι} (hnodup : as.Nodup) (groups : Groups ι)
    (hkept : ∀ c ∈ groups.map Prod.snd, c ∉ as ∧ M.note s.program c = none) :
    f (endState (M.pass as groups s)).program = f s.program ∧
      Terminates (M.note (endState (M.pass as groups s)).program) := by
  induction as generalizing groups s with
  | nil =>
    rw [M.pass_nil]
    exact ⟨rfl, h⟩
  | cons a as ih =>
    obtain ⟨hnew, hnodup⟩ := List.nodup_cons.mp hnodup
    have hkeep (c) (hc : c ∈ groups.map Prod.snd) :
        c ≠ a ∧ c ∉ as ∧ M.note s.program c = none := by
      simpa [not_or, and_assoc] using hkept c hc
    cases hx : M.find? s.program a with
    | none =>
      obtain ⟨e, he⟩ := M.pass_cons_of_missing hx as groups
      rw [he]
      exact ⟨rfl, h⟩
    | some x =>
    have hnote (r : Option ι) := M.note_set hx r
    cases hc : M.join? s.program groups a x with
    | some c =>
      obtain ⟨hca, -, hnone⟩ := hkeep c (mem_of_join? hc).2.1
      rw [pass_cons_of_join hx hc, Pass.endState_bind_pure,
        ← hf s.program a (M.annotate (some c) x)]
      refine ih (s := M.joined s a c x) ?_ hnodup groups fun d hd => ?_
      · rw [joined, hnote]
        refine h.update fun d hd => ?_
        cases hd
        exact ⟨hca, hnone⟩
      · obtain ⟨hda, hd, hnone⟩ := hkeep d hd
        exact ⟨hd, by rwa [joined, hnote, Function.update_of_ne hda]⟩
    | none =>
      rw [pass_cons_of_keep hx hc, ← hf s.program a (M.annotate none x)]
      refine ih (s := M.kept s a x) ?_ hnodup _ fun d hd => ?_
      · rw [kept, hnote]
        exact h.update fun d hd => by cases hd
      · rw [List.map_append, List.mem_append] at hd
        obtain hd | hd := hd
        · obtain ⟨hda, hd, hnone⟩ := hkeep d hd
          exact ⟨hd, by rwa [kept, hnote, Function.update_of_ne hda]⟩
        · obtain rfl := List.mem_singleton.mp hd
          exact ⟨hnew, by rw [kept, hnote, Function.update_self]⟩

end Mergeable

namespace Program

/-- No definition stands twice in the components, and no note leads in a circle. -/
structure Led (p : Program) : Prop where
  nodup : p.defns.Nodup
  blocks : Terminates p.blockNote
  closures : Terminates p.closureNote

theorem Led.of_eq {p q : Program} (h : p.Led) (hdefns : q.defns = p.defns)
    (hblocks : q.blockNote = p.blockNote) (hclosures : q.closureNote = p.closureNote) : q.Led :=
  ⟨hdefns ▸ h.nodup, hblocks ▸ h.blocks, hclosures ▸ h.closures⟩

theorem Led.redirect {p : Program} (h : p.Led) : p.redirect.Led := by
  refine h.of_eq defns_redirect (funext fun b => ?_) (funext fun k => ?_)
  · cases hb : p.blocks[b.index]? <;> simp [blockNote, Program.redirect, hb]
  · cases hk : p.closures[k.index]? <;> simp [closureNote, Program.redirect, hk]

theorem defns_setBlock (p : Program) (b : BlockId) (x : Block) :
    (p.setBlock b x).defns = p.defns := by
  simp [defns, allDefns, blockIds, closureIds, topIds, setBlock]

theorem defns_setClosure (p : Program) (k : ClosureId) (x : Closure) :
    (p.setClosure k x).defns = p.defns := by
  simp [defns, allDefns, blockIds, closureIds, topIds, setClosure]

theorem Led.modifyTop {p : Program} (h : p.Led) (t : TopId) (f : TopLevel → TopLevel) :
    (endState (Edit.modifyTop t f p)).Led := by
  cases htop : p.tops[t.index]? with
  | none => simpa [Edit.modifyTop, Edit.read, top, htop, bind, EStateM.bind, endState] using h
  | some top =>
    have hok : Edit.modifyTop t f p = .ok () (p.setTop t (f top)) :=
      Edit.modifyTop_eq_ok_iff.mpr ⟨top, htop, rfl⟩
    rw [hok]
    exact h.of_eq (by simp [defns, allDefns, blockIds, closureIds, topIds, setTop, endState]) rfl
      rfl

end Program

namespace Pass

theorem preserves_collapseBlocks : Preserves Program.Led collapseBlocks := by
  intro s h
  obtain ⟨hrest, hends⟩ := Mergeable.blocks.terminates_pass (f := fun p => (p.defns, p.closureNote))
    (fun p b x => Prod.ext (p.defns_setBlock b x) rfl) h.blocks
    (Program.nodup_retainedBlocks h.nodup) [] (by simp)
  obtain ⟨hdefns, hclosures⟩ := Prod.mk.inj hrest
  refine Preserves.after (x := mergeBlocks s.program.retainedBlocks []) ?_ fun _ =>
    .of_same fun _ => rfl
  exact ⟨hdefns ▸ h.nodup, hends, hclosures ▸ h.closures⟩

theorem preserves_collapseClosures : Preserves Program.Led collapseClosures := by
  intro s h
  obtain ⟨hrest, hends⟩ := Mergeable.closures.terminates_pass (f := fun p => (p.defns, p.blockNote))
    (fun p k x => Prod.ext (p.defns_setClosure k x) rfl) h.closures
    (Program.nodup_retainedClosures h.nodup) [] (by simp)
  obtain ⟨hdefns, hblocks⟩ := Prod.mk.inj hrest
  refine Preserves.after (x := mergeClosures s.program.retainedClosures []) ?_
    fun _ => .of_same fun _ => rfl
  exact ⟨hdefns ▸ h.nodup, hblocks ▸ h.blocks, hends⟩

theorem preserves_redirect : Preserves Program.Led redirect := by
  refine .bind (.of_same fun _ => rfl) fun s => ?_
  split
  · exact .of_same fun _ => rfl
  · exact fun _ h => h.redirect

theorem preserves_mergeTops (ts : List TopId) (groups : Groups TopId) :
    Preserves Program.Led (mergeTops ts groups) := by
  induction ts generalizing groups with
  | nil => exact .of_same fun _ => rfl
  | cons t ts ih =>
    unfold mergeTops
    refine .bind (.look _) fun top => ?_
    dsimp only
    split
    · exact ih groups
    refine .bind (.of_same fun _ => rfl) fun s => ?_
    split
    · exact .bind (.edit fun p h => h.modifyTop t _) fun _ => .bind (.of_same fun _ => rfl) fun _ =>
        .bind (.of_same fun _ => rfl) fun _ => ih groups
    · exact ih _

theorem preserves_collapse : Preserves Program.Led collapse := by
  have htops : Preserves Program.Led collapseTops :=
    .bind (.of_same fun _ => rfl) fun _ => .bind (preserves_mergeTops _ []) fun _ =>
      .of_same fun _ => rfl
  refine .bind preserves_collapseBlocks fun _ => .bind preserves_collapseClosures fun _ => ?_
  dsimp only
  split
  · exact .bind preserves_redirect fun _ => htops
  · exact htops

end Pass

namespace Program

/-- A change of programs between merging passes. Definitions come in without a note, and bodies,
entrypoints and components become what they like; or a merging pass is made, perhaps up to where it
fails. The components that it goes through share no definition. -/
inductive Evolves : Program → Program → Prop
  | change {p q : Program} (hblocks : q.blockNote = p.blockNote)
      (hclosures : q.closureNote = p.closureNote) : Evolves p q
  -- for components as they are computed, `Current.nodup_defns` gives the condition
  | collapse (s : Workbench) (hnodup : s.program.defns.Nodup) :
      Evolves s.program (endState (Pass.collapse s)).program

variable {p q : Program}

theorem Evolves.addBlock {block : Block} (h : block.replacement = none) :
    Evolves p (p.addBlock block).2 := by
  refine .change (funext fun b => ?_) rfl
  rw [blockNote, blockNote, Program.addBlock, Array.getElem?_push]
  split
  · rename_i hb
    rw [hb, Array.getElem?_size, Option.bind_some, Option.bind_none, h]
  · rfl

theorem Evolves.terminates (h : Evolves p q) (hblocks : Terminates p.blockNote)
    (hclosures : Terminates p.closureNote) : Terminates q.blockNote ∧ Terminates q.closureNote := by
  cases h with
  | change hb hk => exact ⟨hb ▸ hblocks, hk ▸ hclosures⟩
  | collapse s hnodup =>
    obtain ⟨-, hblocks, hclosures⟩ := Pass.preserves_collapse s ⟨hnodup, hblocks, hclosures⟩
    exact ⟨hblocks, hclosures⟩

/-- Notes never lead in a circle. However a program without notes evolves, from every block and
closure they lead to one without a note, in at most as many steps as there are blocks or closures;
the replacement is found there, and more fuel is of no use. -/
theorem evolves_replacements_end (hp : ∀ b, p.blockNote b = none)
    (hp' : ∀ k, p.closureNote k = none) (h : Relation.ReflTransGen Evolves p q) :
    (∀ b, ∃ n ≤ q.blocks.size, EndsAt q.blockNote n b (q.blockReplacement b) ∧
      ∀ fuel ≥ n, q.blockReplacementFrom fuel b = q.blockReplacement b) ∧
    ∀ k, ∃ n ≤ q.closures.size, EndsAt q.closureNote n k (q.closureReplacement k) ∧
      ∀ fuel ≥ n, q.closureReplacementFrom fuel k = q.closureReplacement k := by
  have hends : Terminates q.blockNote ∧ Terminates q.closureNote := by
    induction h with
    | refl => exact ⟨fun b => ⟨0, b, .stop (hp b)⟩, fun k => ⟨0, k, .stop (hp' k)⟩⟩
    | tail _ hstep ih => exact hstep.terminates ih.1 ih.2
  constructor
  · have hids : ∀ b, q.blockNote b ≠ none → b ∈ q.blockIds := by
      intro b hb
      obtain ⟨c, hc⟩ := Option.ne_none_iff_exists'.mp hb
      obtain ⟨x, hx, -⟩ := Option.bind_eq_some_iff.mp hc
      exact List.mem_map.mpr ⟨b.index, List.mem_range.mpr (Array.getElem?_eq_some_iff.mp hx).1, rfl⟩
    have hfound := hends.1.found hids
    rw [blockIds, List.length_map, List.length_range] at hfound
    simpa only [blockReplacement, blockReplacementFrom_eq_follow] using hfound
  · have hids : ∀ k, q.closureNote k ≠ none → k ∈ q.closureIds := by
      intro k hk
      obtain ⟨l, hl⟩ := Option.ne_none_iff_exists'.mp hk
      obtain ⟨x, hx, -⟩ := Option.bind_eq_some_iff.mp hl
      exact List.mem_map.mpr ⟨k.index, List.mem_range.mpr (Array.getElem?_eq_some_iff.mp hx).1, rfl⟩
    have hfound := hends.2.found hids
    rw [closureIds, List.length_map, List.length_range] at hfound
    simpa only [closureReplacement, closureReplacementFrom_eq_follow] using hfound

def merging : Program where
  blocks := .replicate 2 { params := [⟨1⟩], code := .done (.ret [.temp ⟨1⟩]) }
  components := #[⟨[.block ⟨0⟩], false, []⟩, ⟨[.block ⟨1⟩], false, []⟩]

def thrice : Program :=
  ((endState (Pass.collapse { program := merging })).program.addBlock
    { params := [⟨2⟩], code := .done (.ret [.temp ⟨2⟩]) }).2

/-- The new block now stands first, and the second one is left out. -/
def remerging : Program :=
  { thrice with components := #[⟨[.block ⟨2⟩], false, []⟩, ⟨[.block ⟨0⟩], false, []⟩] }

/-- The note of an earlier round leads on to that of a later one. -/
theorem evolves_replacements_end_twice :
    ∃ q, Relation.ReflTransGen Evolves merging q ∧ q.blockNote ⟨1⟩ = some ⟨0⟩ ∧
      q.blockNote ⟨0⟩ = some ⟨2⟩ ∧
      ∃ n ≤ q.blocks.size, EndsAt q.blockNote n ⟨1⟩ (q.blockReplacement ⟨1⟩) := by
  have hfirst : Relation.ReflTransGen Evolves merging thrice :=
    .tail (.single (.collapse { program := merging } (by decide +kernel))) (.addBlock rfl)
  have hrun : Relation.ReflTransGen Evolves merging
      (endState (Pass.collapse { program := remerging })).program :=
    .tail (hfirst.tail (.change (q := remerging) rfl rfl))
      (.collapse { program := remerging } (by decide +kernel))
  have hblocks (b : BlockId) : merging.blockNote b = none := by
    simp [blockNote, merging, Array.getElem?_replicate]
  obtain ⟨n, hn, hends, -⟩ := (evolves_replacements_end hblocks (fun _ => rfl) hrun).1 ⟨1⟩
  exact ⟨_, hrun, by decide +kernel, by decide +kernel, n, hn, hends⟩

end Program

end MonadicIR
