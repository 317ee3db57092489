import MonadicIR.Optimiser.Merge
import MonadicIR.Optimiser.Unused
import MonadicIR.Proofs.Passes

namespace MonadicIR

open Pass

/-- The state in which a computation ends, also by a failure. -/
def endState {ε σ α : Type} : EStateM.Result ε σ α → σ
  | .ok _ s | .error _ s => s

/-- What a definition consists of, whatever its kind. -/
structure Outline where
  body : Code
  origin : Origin := .source
  derived : List DefnId := []
  replacement : Option DefnId := none
  /-- What a closure is entered with. -/
  params : List Temp := []

def Block.outline (x : Block) : Outline where
  body := x.code
  origin := x.origin
  derived := x.derived.map .block
  replacement := x.replacement.map .block

def Closure.outline (x : Closure) : Outline where
  body := .done x.tail
  origin := x.origin
  derived := x.derived.map .closure
  replacement := x.replacement.map .closure
  params := x.params

def TopLevel.outline (x : TopLevel) : Outline where
  body := .done x.tail

namespace Program

def outline? (p : Program) : DefnId → Option Outline
  | .block b => (p.blocks[b.index]?).map Block.outline
  | .closure k => (p.closures[k.index]?).map Closure.outline
  | .top t => (p.tops[t.index]?).map TopLevel.outline

def body? (p : Program) (d : DefnId) : Option Code := (p.outline? d).map Outline.body

section Outline

variable {p : Program}

theorem outline?_block {b : BlockId} {block : Block} (h : p.blocks[b.index]? = some block) :
    p.outline? (.block b) = some block.outline := by
  simp only [outline?, h, Option.map_some]

theorem outline?_closure {k : ClosureId} {closure : Closure}
    (h : p.closures[k.index]? = some closure) : p.outline? (.closure k) = some closure.outline := by
  simp only [outline?, h, Option.map_some]

theorem outline?_top {t : TopId} {top : TopLevel} (h : p.tops[t.index]? = some top) :
    p.outline? (.top t) = some top.outline := by
  simp only [outline?, h, Option.map_some]

theorem outline?_addBlock (p : Program) (block : Block) :
    p.outline? (.block ⟨p.blocks.size⟩) = none ∧
      (p.addBlock block).2.outline? (.block ⟨p.blocks.size⟩) = some block.outline ∧
      ∀ e, e ≠ .block ⟨p.blocks.size⟩ → (p.addBlock block).2.outline? e = p.outline? e := by
  refine ⟨by simp [outline?], by simp [outline?, addBlock], fun e he => ?_⟩
  cases e with
  | block b =>
    have hb : b.index ≠ p.blocks.size := fun h => he (congrArg (DefnId.block ∘ BlockId.mk) h)
    simp only [outline?, addBlock, Array.getElem?_push, hb, if_false]
  | closure _ | top _ => rfl

theorem outline?_addClosure (p : Program) (closure : Closure) :
    p.outline? (.closure ⟨p.closures.size⟩) = none ∧
      (p.addClosure closure).2.outline? (.closure ⟨p.closures.size⟩) = some closure.outline ∧
      ∀ e, e ≠ .closure ⟨p.closures.size⟩ →
        (p.addClosure closure).2.outline? e = p.outline? e := by
  refine ⟨by simp [outline?], by simp [outline?, addClosure], fun e he => ?_⟩
  cases e with
  | closure k =>
    have hk : k.index ≠ p.closures.size := fun h => he (congrArg (DefnId.closure ∘ ClosureId.mk) h)
    simp only [outline?, addClosure, Array.getElem?_push, hk, if_false]
  | block _ | top _ => rfl

theorem outline?_setBlock {b : BlockId} {old : Block} (hold : p.blocks[b.index]? = some old)
    (block : Block) : (p.setBlock b block).outline? (.block b) = some block.outline ∧
      ∀ e, e ≠ .block b → (p.setBlock b block).outline? e = p.outline? e := by
  have hlt := (Array.getElem?_eq_some_iff.mp hold).1
  refine ⟨by simp [outline?, setBlock, hlt], fun e he => ?_⟩
  cases e with
  | block c =>
    have hc : b.index ≠ c.index := fun h => he (congrArg (DefnId.block ∘ BlockId.mk) h.symm)
    simp only [outline?, setBlock, Array.getElem?_setIfInBounds_ne hc]
  | closure _ | top _ => rfl

theorem outline?_setClosure {k : ClosureId} {old : Closure} (hold : p.closures[k.index]? = some old)
    (closure : Closure) : (p.setClosure k closure).outline? (.closure k) = some closure.outline ∧
      ∀ e, e ≠ .closure k → (p.setClosure k closure).outline? e = p.outline? e := by
  have hlt := (Array.getElem?_eq_some_iff.mp hold).1
  refine ⟨by simp [outline?, setClosure, hlt], fun e he => ?_⟩
  cases e with
  | closure l =>
    have hl : k.index ≠ l.index := fun h => he (congrArg (DefnId.closure ∘ ClosureId.mk) h.symm)
    simp only [outline?, setClosure, Array.getElem?_setIfInBounds_ne hl]
  | block _ | top _ => rfl

theorem outline?_setTop {t : TopId} {old : TopLevel} (hold : p.tops[t.index]? = some old)
    (top : TopLevel) : (p.setTop t top).outline? (.top t) = some top.outline ∧
      ∀ e, e ≠ .top t → (p.setTop t top).outline? e = p.outline? e := by
  have hlt := (Array.getElem?_eq_some_iff.mp hold).1
  refine ⟨by simp [outline?, setTop, hlt], fun e he => ?_⟩
  cases e with
  | top u =>
    have hu : t.index ≠ u.index := fun h => he (congrArg (DefnId.top ∘ TopId.mk) h.symm)
    simp only [outline?, setTop, Array.getElem?_setIfInBounds_ne hu]
  | block _ | closure _ => rfl

end Outline

/-- A single change: one body is new at most, or all calls were pruned or redirected at once. -/
inductive OneChange (p : Program) : Program → Prop
  | body {q : Program} (d : DefnId) (h : ∀ e, e ≠ d → q.body? e = p.body? e) : OneChange p q
  | pruned (usage : Usage) : OneChange p (p.pruneCalls usage)
  | redirected : OneChange p p.redirect

theorem OneChange.of_outline {p q : Program} {d : DefnId}
    (h : ∀ e, e ≠ d → q.outline? e = p.outline? e) : p.OneChange q :=
  .body d fun e he => by rw [body?, h e he, body?]

theorem OneChange.of_outlines {p q : Program} (h : q.outline? = p.outline?) : p.OneChange q :=
  .of_outline (d := .block ⟨0⟩) fun e _ => by rw [h]

end Program

namespace Pass

/-- `I` holds of the program all along the run of an action from a state, also if it fails. -/
inductive Throughout (I : Program → Prop) : {α : Type} → Pass α → Workbench → Prop
  | step {α : Type} {x : Pass α} {s : Workbench}
      (hchange : s.program.OneChange (endState (x s)).program) (hstart : I s.program)
      (hend : I (endState (x s)).program) : Throughout I x s
  | bind {α β : Type} {x : Pass α} {f : α → Pass β} {s : Workbench} (hx : Throughout I x s)
      (hf : ∀ a s', x s = .ok a s' → Throughout I (f a) s') : Throughout I (x >>= f) s

theorem endState_bind {α β : Type} (x : Pass α) (f : α → Pass β) (s : Workbench) :
    endState ((x >>= f) s) = match x s with
      | .ok a s' => endState (f a s')
      | .error _ s' => s' := by
  simp only [bind, EStateM.bind]
  cases x s <;> rfl

theorem endState_edit {α : Type} (e : Edit α) (s : Workbench) :
    (endState (edit e s)).program = endState (e s.program) := by
  obtain ⟨program, current, log, count⟩ := s
  simp only [edit]
  cases e program <;> rfl

namespace Throughout

variable {I J : Program → Prop} {α : Type} {x : Pass α} {s : Workbench}

theorem atEnd (h : Throughout I x s) : I (endState (x s)).program := by
  induction h with
  | step _ _ hend => exact hend
  | @bind _ _ x f s _ _ ihx ihf =>
    rw [endState_bind]
    cases hres : x s with
    | ok a s' => exact ihf a s' hres
    | error e s' =>
      rw [hres] at ihx
      exact ihx

theorem mono (h : Throughout I x s) (hIJ : ∀ p, I p → J p) : Throughout J x s := by
  induction h with
  | step hchange hstart hend => exact .step hchange (hIJ _ hstart) (hIJ _ hend)
  | bind _ _ ihx ihf => exact .bind ihx ihf

theorem of_same (hs : I s.program) (h : (endState (x s)).program = s.program) : Throughout I x s :=
  .step (h ▸ .of_outlines rfl) hs (h ▸ hs)

theorem look (f : Program → Except Fault α) (hs : I s.program) : Throughout I (Pass.look f) s := by
  refine .of_same hs ?_
  rw [Pass.look, endState_edit, Edit.read]
  cases f s.program <;> rfl

theorem edit {e : Edit α} (hchange : s.program.OneChange (endState (e s.program)))
    (hs : I s.program) (hend : I (endState (e s.program))) : Throughout I (Pass.edit e) s :=
  .step (by rw [endState_edit]; exact hchange) hs (by rw [endState_edit]; exact hend)

end Throughout

end Pass

/-- What holds of a program in a world, and which failures may end a run. -/
structure Contract (W : Type) where
  Holds : W → Program → Prop
  Admits : Failure → Prop
  admits_fault : ∀ f, Admits (.fault f)
  admits_exhausted : Admits .exhausted

namespace Contract

variable {W : Type} [Preorder W] {C : Contract W} {α β : Type} {w : W}

/-- Run in this state, the action stays within the contract. If it returns, `Q` holds of the world
that it leads to and of its result. -/
structure Safe (C : Contract W) (w : W) (x : Pass α) (Q : W → α → Prop) (s : Workbench) : Prop where
  throughout : Pass.Throughout (fun p => ∃ w', C.Holds w' p) x s
  returns : ∀ a s', x s = .ok a s' → ∃ w', w ≤ w' ∧ C.Holds w' s'.program ∧ Q w' a
  fails : ∀ e s', x s = .error e s' → C.Admits e

/-- The action stays within the contract wherever it is run. -/
def Keeps (C : Contract W) (w : W) (x : Pass α) (Q : W → α → Prop) : Prop :=
  ∀ s, C.Holds w s.program → C.Safe w x Q s

/-- The same, of an action whose result does not matter. -/
abbrev Stays (C : Contract W) (w : W) (x : Pass α) : Prop := C.Keeps w x fun _ _ => True

/-- The same, where `Q` is asked of what is returned if anything is. -/
abbrev KeepsSome (C : Contract W) (w : W) (x : Pass (Option α)) (Q : W → α → Prop) : Prop :=
  C.Keeps w x fun w' d => ∀ a, d = some a → Q w' a

section Safe

variable {x : Pass α} {f : α → Pass β} {Q Q' : W → α → Prop} {R : W → β → Prop} {s : Workbench}

theorem Safe.imp (h : C.Safe w x Q s) (hQ : ∀ w' a, w ≤ w' → Q w' a → Q' w' a) :
    C.Safe w x Q' s where
  throughout := h.throughout
  returns := by
    intro a s' hres
    obtain ⟨w', hle, hs', ha⟩ := h.returns a s' hres
    exact ⟨w', hle, hs', hQ w' a hle ha⟩
  fails := h.fails

variable (hs : C.Holds w s.program)

include hs

protected theorem Safe.pure {a : α} (ha : Q w a) : C.Safe w (pure a) Q s where
  throughout := .of_same ⟨w, hs⟩ rfl
  returns := by
    intro b s' hres
    obtain ⟨rfl, rfl⟩ := pure_ok_iff.mp hres
    exact ⟨w, le_refl w, hs, ha⟩
  fails := by
    intro e s' hres
    cases hres

theorem Safe.throw {e : Failure} (he : C.Admits e) : C.Safe w (throw e) Q s where
  throughout := .of_same ⟨w, hs⟩ rfl
  returns := fun _ _ hres => absurd hres throw_ne_ok
  fails := by
    intro e' s' hres
    cases hres
    exact he

omit hs in
protected theorem Safe.bind (hx : C.Safe w x Q s)
    (hf : ∀ w' a s', w ≤ w' → C.Holds w' s'.program → Q w' a → C.Safe w' (f a) R s') :
    C.Safe w (x >>= f) R s where
  throughout := .bind hx.throughout fun a s' hres => by
    obtain ⟨w', hle, hs', ha⟩ := hx.returns a s' hres
    exact (hf w' a s' hle hs' ha).throughout
  returns := by
    intro b s' hres
    -- The second action starts in the world that the first one led to.
    obtain ⟨a, s1, ha, hb⟩ := bind_ok_iff.mp hres
    obtain ⟨w1, hle1, hs1, hQ⟩ := hx.returns a s1 ha
    obtain ⟨w', hle, hs', hR⟩ := (hf w1 a s1 hle1 hs1 hQ).returns b s' hb
    exact ⟨w', le_trans hle1 hle, hs', hR⟩
  fails := by
    intro e s' hres
    simp only [bind, EStateM.bind] at hres
    cases hr : x s with
    | ok a s1 =>
      obtain ⟨w1, hle1, hs1, hQ⟩ := hx.returns a s1 hr
      exact (hf w1 a s1 hle1 hs1 hQ).fails e s' (by simpa only [hr] using hres)
    | error e1 s1 =>
      rw [hr] at hres
      cases hres
      exact hx.fails e s' hr

theorem Safe.quiet {a : α} {s' : Workbench} (hx : x s = .ok a s') (hp : s'.program = s.program)
    (hf : C.Safe w (f a) R s') : C.Safe w (x >>= f) R s where
  throughout := by
    refine .bind (.of_same ⟨w, hs⟩ (by rw [hx]; exact hp)) ?_
    intro b s1 hres
    cases hx.symm.trans hres
    exact hf.throughout
  returns := by
    intro b s1 hres
    obtain ⟨_, _, ha, hb⟩ := bind_ok_iff.mp hres
    cases hx.symm.trans ha
    exact hf.returns b s1 hb
  fails := by
    intro e s1 hres
    simp only [bind, EStateM.bind, hx] at hres
    exact hf.fails e s1 hres

theorem Safe.get_bind {f : Workbench → Pass β} (hf : C.Safe w (f s) R s) :
    C.Safe w (get >>= f) R s :=
  .quiet hs rfl rfl hf

theorem Safe.look {g : Program → Except Fault α} (hg : ∀ a, g s.program = .ok a → Q w a) :
    C.Safe w (Pass.look g) Q s := by
  refine ⟨.look g ⟨w, hs⟩, fun a s' hres => ?_, fun e s' hres => ?_⟩
  · obtain ⟨ha, rfl⟩ := look_eq_ok_iff.mp hres
    exact ⟨w, le_refl w, hs, hg a ha⟩
  · obtain ⟨fault, rfl⟩ := edit_eq_error hres
    exact C.admits_fault fault

theorem Safe.look_bind {g : Program → Except Fault α}
    (hf : ∀ a, g s.program = .ok a → C.Safe w (f a) R s) : C.Safe w (Pass.look g >>= f) R s := by
  cases hres : g s.program with
  | ok a => exact .quiet hs (look_eq_ok_iff.mpr ⟨hres, rfl⟩) rfl (hf a hres)
  | error e =>
    refine .bind (Q := fun _ _ => False) (.look hs fun a ha => ?_) fun _ _ _ _ _ hfalse =>
      hfalse.elim
    rw [hres] at ha
    cases ha

end Safe

section Keeps

variable {x : Pass α} {f : α → Pass β} {Q Q' : W → α → Prop} {R : W → β → Prop}

theorem Keeps.of_holds (h : ∀ p, C.Holds w p → C.Keeps w x Q) : C.Keeps w x Q := fun s hs =>
  h s.program hs s hs

theorem Keeps.imp (h : C.Keeps w x Q) (hQ : ∀ w' a, w ≤ w' → Q w' a → Q' w' a) : C.Keeps w x Q' :=
  fun s hs => (h s hs).imp hQ

protected theorem Keeps.pure {a : α} (ha : Q w a) : C.Keeps w (pure a) Q := fun _ hs => .pure hs ha

theorem Keeps.throw {e : Failure} (he : C.Admits e) : C.Keeps w (throw e) Q := fun _ hs =>
    .throw hs he

protected theorem Keeps.bind (hx : C.Keeps w x Q)
    (hf : ∀ w' a, w ≤ w' → Q w' a → C.Keeps w' (f a) R) : C.Keeps w (x >>= f) R :=
  fun s hs => (hx s hs).bind fun w' a s' hle hs' ha => hf w' a hle ha s' hs'

theorem Keeps.throw_bind {e : Failure} (he : C.Admits e) :
    C.Keeps w (MonadExcept.throw e >>= f) R :=
  .bind (Q := fun _ _ => False) (.throw he) fun _ _ _ hfalse => hfalse.elim

protected theorem Keeps.map {g : α → β} (hx : C.Keeps w x Q)
    (hQ : ∀ w' a, w ≤ w' → Q w' a → R w' (g a)) : C.Keeps w (g <$> x) R := by
  rw [map_eq_pure_bind]
  exact .bind hx fun w' a hle ha => .pure (hQ w' a hle ha)

theorem Keeps.of_quiet (hx : ∀ s, ∃ a s', x s = .ok a s' ∧ s'.program = s.program ∧
    (C.Holds w s.program → Q w a)) : C.Keeps w x Q := by
  intro s hs
  obtain ⟨a, s', hres, hp, hQ⟩ := hx s
  refine ⟨.of_same ⟨w, hs⟩ (by rw [hres]; exact hp), fun b s1 hb => ?_, fun e s1 he => ?_⟩
  · cases hres.symm.trans hb
    exact ⟨w, le_refl w, hp ▸ hs, hQ hs⟩
  · cases hres.symm.trans he

theorem Keeps.get : C.Stays w get := .of_quiet fun s => ⟨s, s, rfl, rfl, fun _ => trivial⟩

theorem Keeps.look {g : Program → Except Fault α}
    (h : ∀ p a, C.Holds w p → g p = .ok a → Q w a) : C.Keeps w (Pass.look g) Q :=
  fun s hs => .look hs fun a => h s.program a hs

theorem Keeps.get_bind {g : Workbench → Pass β}
    (hg : ∀ s, C.Holds w s.program → C.Keeps w (g s) R) :
    C.Keeps w (MonadState.get >>= g) R := fun s hs => .get_bind hs (hg s hs s hs)

theorem Keeps.look_bind {g : Program → Except Fault α}
    (hf : ∀ p a, C.Holds w p → g p = .ok a → C.Keeps w (f a) R) : C.Keeps w (Pass.look g >>= f) R :=
  fun s hs => .look_bind hs fun a ha => hf s.program a hs ha s hs

theorem Keeps.peek (g : Program → Except Fault α) : C.Stays w (Pass.look g) :=
  .look fun _ _ _ _ => trivial

theorem Keeps.workOn (d : Option DefnId) : C.Stays w (workOn d) :=
  .of_quiet fun _ => ⟨(), _, rfl, rfl, fun _ => trivial⟩

theorem Keeps.report (text : String) : C.Stays w (report text) :=
  .of_quiet fun _ => ⟨(), _, rfl, rfl, fun _ => trivial⟩

theorem Keeps.report_pure {text : String} {a : α} (ha : ∀ w', w ≤ w' → Q w' a) :
    C.Keeps w (do Pass.report text; pure a) Q :=
  .bind (.report text) fun w' _ hle _ => .pure (ha w' hle)

theorem Keeps.none : C.KeepsSome w (pure .none) Q := .pure fun _ h => by cases h

theorem Keeps.some {a : α} (ha : Q w a) : C.KeepsSome w (pure (.some a)) Q :=
  .pure fun _ h => Option.some.inj h ▸ ha

theorem Keeps.report_some {text : String} {a : α} (ha : ∀ w', w ≤ w' → Q w' a) :
    C.KeepsSome w (do Pass.report text; pure (.some a)) Q :=
  .report_pure fun w' hle _ h => Option.some.inj h ▸ ha w' hle

theorem Keeps.announce {r : α × List String} (hr : ∀ w', w ≤ w' → Q w' r.1) :
    C.Keeps w (announce r) Q := by
  have hall (texts : List String) (w : W) : C.Stays w (reportAll texts) := by
    induction texts generalizing w with
    | nil => exact .pure trivial
    | cons text texts ih => exact .bind (.report text) fun w' _ _ _ => ih w'
  exact .bind (hall r.2 w) fun w' _ hle _ => .pure (hr w' hle)

theorem Keeps.forEach {γ : Type} {g : γ → Pass Unit} {items : List γ}
    (h : ∀ w', w ≤ w' → ∀ c ∈ items, C.Stays w' (g c)) :
    C.Stays w (forEach g items) := by
  -- The world grows from item to item, so what is asked of an item is asked in all later worlds.
  induction items generalizing w with
  | nil => exact .pure trivial
  | cons c items ih =>
    refine .bind (h w (le_refl w) c (.head ..)) fun w' _ hle _ => ih ?_
    exact fun w'' hle' d hd => h w'' (le_trans hle hle') d (.tail _ hd)

theorem Keeps.edit {e : Edit α}
    (h : ∀ p, C.Holds w p → p.OneChange (endState (e p)) ∧
      ∃ w', w ≤ w' ∧ C.Holds w' (endState (e p)) ∧ ∀ a p', e p = .ok a p' → Q w' a) :
    C.Keeps w (Pass.edit e) Q := by
  intro s hs
  obtain ⟨hchange, w', hle, hend, hQ⟩ := h s.program hs
  refine ⟨.edit hchange ⟨w, hs⟩ ⟨w', hend⟩, fun a s' hres => ?_, fun f s' hres => ?_⟩
  · obtain ⟨q, hq, rfl⟩ := edit_eq_ok_iff.mp hres
    rw [hq] at hend
    exact ⟨w', hle, hend, hQ a q hq⟩
  · obtain ⟨fault, rfl⟩ := edit_eq_error hres
    exact C.admits_fault fault

theorem Keeps.modify {g : Program → Program}
    (h : ∀ p, C.Holds w p → p.OneChange (g p) ∧ C.Holds w (g p)) :
    C.Stays w (modify fun s : Workbench => { s with program := g s.program }) := by
  intro s hs
  obtain ⟨hchange, hend⟩ := h s.program hs
  refine ⟨.step hchange ⟨w, hs⟩ ⟨w, hend⟩, fun a s' hres => ?_, fun e s' hres => ?_⟩
  · obtain rfl := modify_ok_iff.mp hres
    exact ⟨w, le_refl w, hend, trivial⟩
  · cases hres

theorem Keeps.update {g : Program → α × Program}
    (h : ∀ p, C.Holds w p → p.OneChange (g p).2 ∧
      ∃ w', w ≤ w' ∧ C.Holds w' (g p).2 ∧ Q w' (g p).1) :
    C.Keeps w (Pass.edit (Edit.update g)) Q := by
  refine .edit fun p hp => ?_
  obtain ⟨hchange, w', hle, hend, hQ⟩ := h p hp
  refine ⟨hchange, w', hle, hend, fun a p' hres => ?_⟩
  rw [Edit.update_eq_ok_iff] at hres
  rw [hres] at hQ
  exact hQ

end Keeps

end Contract

namespace Pass

variable {α β : Type}

theorem edit_pure (a : α) : edit (pure a) = pure a := by
  funext ⟨_, _, _, _⟩
  rfl

theorem edit_throw (f : Fault) : edit (throw f : Edit α) = throw (.fault f) := by
  funext ⟨_, _, _, _⟩
  rfl

theorem edit_bind (e : Edit α) (f : α → Edit β) :
    edit (e >>= f) = edit e >>= fun a => edit (f a) := by
  funext ⟨program, current, log, count⟩
  simp only [edit, bind, EStateM.bind]
  cases e program <;> rfl

end Pass

end MonadicIR
