import MonadicIR.Optimiser.Pass
import MonadicIR.Proofs.Basic

namespace MonadicIR

variable {ε σ α : Type}

@[simp] theorem pure_ok_iff {a b : α} {s s' : σ} :
    (pure a : EStateM ε σ α) s = .ok b s' ↔ b = a ∧ s' = s := by
  simp [pure, EStateM.pure, eq_comm]

@[simp] theorem map_ok_iff {ε σ α β : Type} {f : α → β} {x : EStateM ε σ α} {b : β}
    {s s' : σ} : (f <$> x) s = .ok b s' ↔ ∃ a, x s = .ok a s' ∧ b = f a := by
  simp only [Functor.map, EStateM.map]
  cases x s <;> grind

@[simp] theorem modify_ok_iff {ε σ : Type} {f : σ → σ} {u : PUnit} {s s' : σ} :
    (modify f : EStateM ε σ PUnit) s = .ok u s' ↔ s' = f s := by
  simp [modify, modifyGet, MonadStateOf.modifyGet, EStateM.modifyGet, eq_comm]

@[simp] theorem get_ok_iff {ε σ : Type} {a s s' : σ} :
    (get : EStateM ε σ σ) s = .ok a s' ↔ a = s ∧ s' = s := by
  simp [get, getThe, MonadStateOf.get, EStateM.get, eq_comm]

@[simp] theorem throw_ne_ok {e : ε} {a : α} {s s' : σ} :
    (throw e : EStateM ε σ α) s ≠ .ok a s' := by
  simp [throw, throwThe, MonadExceptOf.throw, EStateM.throw]

/-- A computation with a state fails at once, or where it goes on after another one. -/
theorem bind_error_iff {ε σ α β : Type} {x : EStateM ε σ α} {f : α → EStateM ε σ β}
    {s s' : σ} {e : ε} : (x >>= f) s = .error e s' ↔
      x s = .error e s' ∨ ∃ a s1, x s = .ok a s1 ∧ f a s1 = .error e s' := by
  simp only [bind, EStateM.bind]
  cases x s with
  | ok a s1 =>
    refine ⟨fun h => .inr ⟨a, s1, rfl, h⟩, ?_⟩
    rintro (⟨⟨⟩⟩ | ⟨_, _, ⟨⟩, h⟩)
    exact h
  | error => simp

theorem exists_ok {r : EStateM.Result ε σ α} (test : α → σ → Bool)
    (h : (match r with | .ok a s => test a s | .error .. => false) = true) :
    ∃ a s, r = .ok a s ∧ test a s = true := by
  cases r with
  | ok a s => exact ⟨a, s, rfl, h⟩
  | error => cases h

theorem exists_error {r : EStateM.Result ε σ α} (test : ε → σ → Bool)
    (h : (match r with | .ok .. => false | .error e s => test e s) = true) :
    ∃ e s, r = .error e s ∧ test e s = true := by
  cases r with
  | ok => cases h
  | error e s => exact ⟨e, s, rfl, h⟩

namespace Edit

variable {p p' : Program}

@[simp] theorem read_eq_ok_iff {α : Type} {f : Program → Except Fault α} {a : α} :
    read f p = .ok a p' ↔ f p = .ok a ∧ p' = p := by
  unfold read
  split <;> simp_all [eq_comm]

@[simp] theorem update_eq_ok_iff {α : Type} {f : Program → α × Program} {a : α} :
    update f p = .ok a p' ↔ f p = (a, p') := by
  simp [update, Prod.ext_iff]

@[simp] theorem modifyBlock_eq_ok_iff {b : BlockId} {f : Block → Block} {u : Unit} :
    modifyBlock b f p = .ok u p' ↔
      ∃ block, p.blocks[b.index]? = some block ∧ p' = p.setBlock b (f block) := by
  simp [modifyBlock, bind_ok_iff, Program.block_eq_ok_iff, and_assoc]

@[simp] theorem modifyClosure_eq_ok_iff {k : ClosureId} {f : Closure → Closure} {u : Unit} :
    modifyClosure k f p = .ok u p' ↔
      ∃ closure, p.closures[k.index]? = some closure ∧ p' = p.setClosure k (f closure) := by
  simp [modifyClosure, bind_ok_iff, Program.closure_eq_ok_iff, and_assoc]

@[simp] theorem modifyTop_eq_ok_iff {t : TopId} {f : TopLevel → TopLevel} {u : Unit} :
    modifyTop t f p = .ok u p' ↔
      ∃ top, p.tops[t.index]? = some top ∧ p' = p.setTop t (f top) := by
  simp [modifyTop, bind_ok_iff, Program.top_eq_ok_iff, and_assoc]

theorem computeComponents_eq (p : Program) : computeComponents p =
    match Component.ofRoots p p.roots with
    | .ok cs => .ok (p.complaints cs) (p.setComponents cs)
    | .error f => .error f p := by
  simp only [computeComponents, read, bind, EStateM.bind, get, getThe, MonadStateOf.get,
    EStateM.get]
  cases Component.ofRoots p p.roots <;> rfl

theorem computeComponents_eq_ok {complaints : List Complaint}
    (h : computeComponents p = .ok complaints p') :
    ∃ cs, Component.ofRoots p p.roots = .ok cs ∧ p' = p.setComponents cs ∧
      complaints = p.complaints cs := by
  rw [computeComponents_eq] at h
  cases hcs : Component.ofRoots p p.roots with
  | ok cs =>
    rw [hcs] at h
    cases h
    exact ⟨cs, rfl, rfl, rfl⟩
  | error f =>
    rw [hcs] at h
    cases h

end Edit

namespace Pass

variable {s s' : Workbench}

@[simp] theorem edit_eq_ok_iff {α : Type} {e : Edit α} {a : α} :
    edit e s = .ok a s' ↔ ∃ q, e s.program = .ok a q ∧ s' = { s with program := q } := by
  obtain ⟨program, current, log, count⟩ := s
  simp only [edit]
  cases e program <;> simp [eq_comm, and_assoc]

theorem edit_eq_error {α : Type} {e : Edit α} {f : Failure} (h : edit e s = .error f s') :
    ∃ fault, f = .fault fault := by
  obtain ⟨program, current, log, count⟩ := s
  simp only [edit] at h
  split at h
  · cases h
  · cases h
    exact ⟨_, rfl⟩

@[simp] theorem look_eq_ok_iff {α : Type} {f : Program → Except Fault α} {a : α} :
    look f s = .ok a s' ↔ f s.program = .ok a ∧ s' = s := by
  obtain ⟨program, current, log, count⟩ := s
  simp [look, and_assoc]

@[simp] theorem workOn_eq_ok_iff {d : Option DefnId} {u : Unit} :
    workOn d s = .ok u s' ↔ s' = { s with current := d } := by
  simp [workOn]

@[simp] theorem report_eq_ok_iff {text : String} {u : Unit} :
    report text s = .ok u s' ↔
      s' = { s with log := s.log.push ⟨s.current, text⟩, count := s.count + 1 } := by
  simp [report]

/-- A shake that finds nothing wrong computes the components and counts the references. -/
theorem shake_eq_ok {u : Unit} (h : shake s = .ok u s') : ∃ cs q,
    Component.ofRoots s.program s.program.roots = .ok cs ∧ s.program.complaints cs = [] ∧
      Edit.countOccurrences (s.program.setComponents cs) = .ok () q ∧
        s' = { s with program := q } := by
  obtain ⟨complaints, s1, hcomponents, h⟩ := bind_ok_iff.mp h
  obtain ⟨q, hq, rfl⟩ := edit_eq_ok_iff.mp hcomponents
  obtain ⟨cs, hcs, rfl, rfl⟩ := Edit.computeComponents_eq_ok hq
  split at h
  · rename_i hnone
    obtain ⟨q, hq, rfl⟩ := edit_eq_ok_iff.mp h
    exact ⟨cs, q, hcs, List.isEmpty_iff.mp hnone, hq, rfl⟩
  · exact absurd h throw_ne_ok

/-- An action that leaves the workbench as it is. -/
def Looks {α : Type} (f : Pass α) : Prop := ∀ ⦃s a s'⦄, f s = .ok a s' → s' = s

namespace Looks

variable {α β : Type}

protected theorem pure (a : α) : Looks (pure a) := fun _ _ _ h => (pure_ok_iff.mp h).2

theorem look (f : Program → Except Fault α) : Looks (look f) := fun _ _ _ h =>
    (look_eq_ok_iff.mp h).2

protected theorem bind {f : Pass α} {g : α → Pass β} (hf : Looks f) (hg : ∀ a, Looks (g a)) :
    Looks (f >>= g) := by
  intro s b s' h
  obtain ⟨a, s1, ha, hb⟩ := bind_ok_iff.mp h
  rw [← hf ha]
  exact hg a hb

protected theorem ite {c : Prop} [Decidable c] {f g : Pass α} (hf : Looks f) (hg : Looks g) :
    Looks (if c then f else g) := by
  split <;> assumption

end Looks

end Pass

end MonadicIR
