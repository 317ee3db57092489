import MonadicIR.Proofs.Passes

namespace MonadicIR.Pass

variable {α β : Type}

/-- The action has returned, or failed for another reason than that it was given up. -/
def Outcome (Q : α → Program → Prop) : EStateM.Result Failure Workbench α → Prop
  | .ok a s => Q a s.program
  | .error e _ => e ≠ .exhausted

/-- With enough fuel the action comes to an end, and further fuel changes nothing. -/
def Settles (P : Program → Prop) (x : Nat → Pass α) (Q : α → Program → Prop) : Prop :=
  ∀ s : Workbench, P s.program → ∃ n r, (∀ fuel, n ≤ fuel → x fuel s = r) ∧ Outcome Q r

namespace Settles

variable {P P' : Program → Prop} {x : Nat → Pass α} {f : Nat → α → Pass β}
  {Q Q' : α → Program → Prop} {R : β → Program → Prop}

theorem imp (h : Settles P x Q) (hP : ∀ p, P' p → P p) (hQ : ∀ a p, Q a p → Q' a p) :
    Settles P' x Q' := by
  intro s hs
  obtain ⟨n, r, hr, hout⟩ := h s (hP _ hs)
  refine ⟨n, r, hr, ?_⟩
  cases r with
  | ok a s' => exact hQ a _ hout
  | error e s' => exact hout

theorem of_program (h : ∀ p, P p → Settles (· = p) x Q) : Settles P x Q := fun s hs =>
  h s.program hs s rfl

protected theorem pure {a : α} (h : ∀ p, P p → Q a p) : Settles P (fun _ => pure a) Q := fun s hs =>
  ⟨0, .ok a s, fun _ _ => rfl, h _ hs⟩

protected theorem bind (hx : Settles P x Q) (hf : ∀ a, Settles (Q a) (fun fuel => f fuel a) R) :
    Settles P (fun fuel => x fuel >>= f fuel) R := by
  intro s hs
  obtain ⟨n, r, hr, hout⟩ := hx s hs
  cases r with
  | error e s' =>
    refine ⟨n, .error e s', fun fuel hfuel => ?_, hout⟩
    simp only [bind, EStateM.bind, hr fuel hfuel]
  | ok a s' =>
    obtain ⟨m, r', hr', hout'⟩ := hf a s' hout
    refine ⟨max n m, r', fun fuel hfuel => ?_, hout'⟩
    have hn := hr fuel (le_trans (Nat.le_max_left n m) hfuel)
    have hm := hr' fuel (le_trans (Nat.le_max_right n m) hfuel)
    simp only [bind, EStateM.bind, hn, hm]

protected theorem ite {c : Prop} [Decidable c] {y : Nat → Pass α} (hx : c → Settles P x Q)
    (hy : ¬c → Settles P y Q) : Settles P (fun fuel => if c then x fuel else y fuel) Q := by
  by_cases h : c
  · simpa only [if_pos h] using hx h
  · simpa only [if_neg h] using hy h

theorem of_succ (h : Settles P (fun fuel => x (fuel + 1)) Q) : Settles P x Q := by
  intro s hs
  obtain ⟨n, r, hr, hout⟩ := h s hs
  refine ⟨n + 1, r, fun fuel hfuel => ?_, hout⟩
  obtain ⟨m, rfl⟩ := Nat.exists_eq_add_of_le' (le_trans (Nat.le_add_left 1 n) hfuel)
  exact hr m (by omega)

theorem of_result {y : Pass α} (hok : ∀ s a s', P s.program → y s = .ok a s' → Q a s'.program)
    (herror : ∀ s e s', y s = .error e s' → e ≠ .exhausted) : Settles P (fun _ => y) Q := by
  intro s hs
  refine ⟨0, y s, fun _ _ => rfl, ?_⟩
  cases hres : y s with
  | ok a s' => exact hok s a s' hs hres
  | error e s' => exact herror s e s' hres

theorem edit {e : Edit α} (h : ∀ p a p', P p → e p = .ok a p' → Q a p') :
    Settles P (fun _ => Pass.edit e) Q := by
  refine of_result (fun s a s' hs hres => ?_) fun s e s' hres => ?_
  · obtain ⟨q, hq, rfl⟩ := edit_eq_ok_iff.mp hres
    exact h s.program a q hs hq
  · obtain ⟨fault, rfl⟩ := edit_eq_error hres
    exact Failure.noConfusion

theorem look {g : Program → Except Fault α} (h : ∀ p a, P p → g p = .ok a → Q a p) :
    Settles P (fun _ => Pass.look g) Q :=
  edit fun p a p' hp hres => by
    obtain ⟨ha, rfl⟩ := Edit.read_eq_ok_iff.mp hres
    exact h p' a hp ha

theorem get : Settles P (fun _ => get) fun s p => P p ∧ p = s.program := fun s hs =>
  ⟨0, .ok s s, fun _ _ => rfl, hs, rfl⟩

theorem of_quiet {y : Pass α} (h : ∀ s, ∃ a s', y s = .ok a s' ∧ s'.program = s.program) :
    Settles P (fun _ => y) fun _ => P := by
  refine of_result (fun s a s' hs hres => ?_) fun s e s' hres => ?_
  · obtain ⟨a', s1, hres', hp⟩ := h s
    cases hres'.symm.trans hres
    exact hp ▸ hs
  · obtain ⟨a', s1, hres', -⟩ := h s
    cases hres'.symm.trans hres

theorem workOn (d : Option DefnId) : Settles P (fun _ => Pass.workOn d) fun _ => P :=
  of_quiet fun _ => ⟨(), _, rfl, rfl⟩

theorem report (text : String) : Settles P (fun _ => Pass.report text) fun _ => P :=
  of_quiet fun _ => ⟨(), _, rfl, rfl⟩

theorem announce (r : α × List String) :
    Settles P (fun _ => Pass.announce r) fun a p => P p ∧ a = r.1 := by
  have hall (texts : List String) : Settles P (fun _ => Pass.reportAll texts) fun _ => P := by
    induction texts with
    | nil => exact .pure fun _ => id
    | cons text texts ih => exact .bind (report text) fun _ => ih
  exact .bind (hall r.2) fun _ => .pure fun p hp => ⟨hp, rfl⟩

theorem look_bind {p : Program} {g : Program → Except Fault α}
    (h : ∀ a, g p = .ok a → Settles (· = p) (fun fuel => f fuel a) R) :
    Settles (· = p) (fun fuel => Pass.look g >>= f fuel) R := by
  refine .bind (.look (Q := fun a q => g q = .ok a ∧ q = p) fun q a hq ha => ⟨ha, hq⟩) fun a s hs =>
    ?_
  exact h a (hs.2 ▸ hs.1) s hs.2

theorem get_bind {p : Program} {f : Nat → Workbench → Pass β}
    (h : ∀ s, s.program = p → Settles (· = p) (fun fuel => f fuel s) R) :
    Settles (· = p) (fun fuel => MonadState.get >>= f fuel) R :=
  .bind .get fun s s' hs => h s (hs.2.symm.trans hs.1) s' hs.1

end Settles

def Later {W : Type} [Preorder W] (H : W → Program → Prop) (w : W) (Q : W → α → Prop) (a : α)
    (p : Program) : Prop := ∃ w', w ≤ w' ∧ H w' p ∧ Q w' a

/-- Started in a world, the action comes to an end in a later one. -/
def SettlesIn {W : Type} [Preorder W] (H : W → Program → Prop) (w : W) (x : Nat → Pass α)
    (Q : W → α → Prop) : Prop := Settles (H w) x (Later H w Q)

namespace SettlesIn

variable {W : Type} [Preorder W] {H : W → Program → Prop} {w : W} {x : Nat → Pass α}
  {f : Nat → α → Pass β} {Q Q' : W → α → Prop} {R : W → β → Prop}

protected theorem pure {a : α} (ha : Q w a) : SettlesIn H w (fun _ => pure a) Q :=
  Settles.pure fun _ hp => ⟨w, le_refl w, hp, ha⟩

theorem later {w' : W} (h : SettlesIn H w' x Q) (hle : w ≤ w') : Settles (H w') x (Later H w Q) :=
  Settles.imp h (fun _ => id) fun a _ hlater => by
    obtain ⟨w'', hle', hw'', ha⟩ := hlater
    exact ⟨w'', le_trans hle hle', hw'', ha⟩

theorem andThen {R : β → Program → Prop} (hx : SettlesIn H w x Q)
    (hf : ∀ w' a, w ≤ w' → Q w' a → Settles (H w') (fun fuel => f fuel a) R) :
    Settles (H w) (fun fuel => x fuel >>= f fuel) R := by
  refine Settles.bind hx fun a s hs => ?_
  obtain ⟨w', hle, hw', ha⟩ := hs
  exact hf w' a hle ha s hw'

protected theorem bind (hx : SettlesIn H w x Q)
    (hf : ∀ w' a, w ≤ w' → Q w' a → SettlesIn H w' (fun fuel => f fuel a) R) :
    SettlesIn H w (fun fuel => x fuel >>= f fuel) R :=
  hx.andThen fun w' a hle ha => (hf w' a hle ha).later hle

protected theorem ite {c : Prop} [Decidable c] {y : Nat → Pass α} (hx : c → SettlesIn H w x Q)
    (hy : ¬c → SettlesIn H w y Q) : SettlesIn H w (fun fuel => if c then x fuel else y fuel) Q :=
  Settles.ite hx hy

protected theorem map {g : α → β} (hx : SettlesIn H w x Q)
    (hQ : ∀ w' a, w ≤ w' → Q w' a → R w' (g a)) : SettlesIn H w (fun fuel => g <$> x fuel) R := by
  simp only [map_eq_pure_bind]
  exact .bind hx fun w' a hle ha => .pure (hQ w' a hle ha)

theorem look {g : Program → Except Fault α} (h : ∀ p a, H w p → g p = .ok a → Q w a) :
    SettlesIn H w (fun _ => Pass.look g) Q :=
  Settles.look fun p a hp ha => ⟨w, le_refl w, hp, h p a hp ha⟩

theorem peek (g : Program → Except Fault α) : SettlesIn H w (fun _ => Pass.look g) fun _ _ =>
    True :=
  look fun _ _ _ _ => trivial

theorem edit {e : Edit α}
    (h : ∀ p a p', H w p → e p = .ok a p' → ∃ w', w ≤ w' ∧ H w' p' ∧ Q w' a) :
    SettlesIn H w (fun _ => Pass.edit e) Q :=
  Settles.edit h

theorem workOn (d : Option DefnId) : SettlesIn H w (fun _ => Pass.workOn d) fun _ _ => True :=
  Settles.imp (Settles.workOn d) (fun _ => id) fun _ _ hp => ⟨w, le_refl w, hp, trivial⟩

theorem report (text : String) : SettlesIn H w (fun _ => Pass.report text) fun _ _ => True :=
  Settles.imp (Settles.report text) (fun _ => id) fun _ _ hp => ⟨w, le_refl w, hp, trivial⟩

theorem report_pure {text : String} {a : α} (ha : ∀ w', w ≤ w' → Q w' a) :
    SettlesIn H w (fun _ => do Pass.report text; pure a) Q :=
  .bind (.report text) fun w' _ hle _ => .pure (ha w' hle)

theorem announce {r : α × List String} (hr : Q w r.1) :
    SettlesIn H w (fun _ => Pass.announce r) Q :=
  Settles.imp (Settles.announce r) (fun _ => id) fun _ _ ha => ⟨w, le_refl w, ha.1, ha.2 ▸ hr⟩

end SettlesIn

end MonadicIR.Pass
