import MonadicIR.Alpha
import MonadicIR.Proofs.Basic

namespace MonadicIR

variable {env : Pairing}

theorem Atom.summary_of_alpha {a b : Atom} (h : a.alpha env b = true) : a.summary = b.summary := by
  unfold alpha at h
  split at h
  · rfl
  · rw [eq_of_beq h]

theorem Atom.summaryAll_of_alphaAll {as bs : List Atom} (h : alphaAll env as bs = true)
    (seed : Word) : summaryAll seed as = summaryAll seed bs := by
  induction as generalizing bs seed with
  | nil =>
    cases bs with
    | nil => rfl
    | cons b bs => cases h
  | cons a as ih =>
    cases bs with
    | nil => cases h
    | cons b bs =>
      obtain ⟨ha, has⟩ := (Bool.and_eq_true _ _).mp h
      calc summaryAll seed (a :: as)
        _ = summaryAll (seed * 53 + a.summary) as := rfl
        _ = summaryAll (seed * 53 + b.summary) as := by rw [Atom.summary_of_alpha ha]
        _ = summaryAll (seed * 53 + b.summary) bs := ih has _
        _ = summaryAll seed (b :: bs) := rfl

theorem Call.summary_of_alpha {c d : Call} (h : c.alpha env d = true) : c.summary = d.summary := by
  obtain ⟨htarget, hargs⟩ := (Bool.and_eq_true _ _).mp h
  simp only [summary, eq_of_beq htarget, Atom.summaryAll_of_alphaAll hargs]

theorem Tail.summary_of_alpha {t u : Tail} (h : t.alpha env u = true) : t.summary = u.summary := by
  cases t with
  | ret as =>
    cases u with
    | ret bs => exact Atom.summaryAll_of_alphaAll h 1
    | enter _ _ | call _ | data _ _ | closure _ _ | sel _ _ _ | prim _ _ => cases h
  | enter f as =>
    cases u with
    | enter g bs =>
      obtain ⟨hf, hargs⟩ := (Bool.and_eq_true _ _).mp h
      simp only [summary, Atom.summaryAll, List.foldl_cons, List.foldl_nil,
        Atom.summary_of_alpha hf]
      exact Atom.summaryAll_of_alphaAll hargs _
    | ret _ | call _ | data _ _ | closure _ _ | sel _ _ _ | prim _ _ => cases h
  | call c =>
    cases u with
    | call d => exact Call.summary_of_alpha h
    | ret _ | enter _ _ | data _ _ | closure _ _ | sel _ _ _ | prim _ _ => cases h
  | data ctor as =>
    cases u with
    | data ctor' bs =>
      obtain ⟨hctor, hargs⟩ := (Bool.and_eq_true _ _).mp h
      simp only [summary, (Ctor.same_iff.mp hctor).2, Atom.summaryAll_of_alphaAll hargs]
    | ret _ | enter _ _ | call _ | closure _ _ | sel _ _ _ | prim _ _ => cases h
  | closure k as =>
    cases u with
    | closure l bs =>
      obtain ⟨hk, hargs⟩ := (Bool.and_eq_true _ _).mp h
      simp only [summary, eq_of_beq hk, Atom.summaryAll_of_alphaAll hargs]
    | ret _ | enter _ _ | call _ | data _ _ | sel _ _ _ | prim _ _ => cases h
  | sel ctor i a =>
    cases u with
    | sel ctor' j b =>
      simp only [alpha, Bool.and_eq_true, Ctor.same_iff, beq_iff_eq] at h
      obtain ⟨⟨⟨-, htag⟩, hfield⟩, ha⟩ := h
      simp only [summary, htag, hfield, Atom.summary_of_alpha ha]
    | ret _ | enter _ _ | call _ | data _ _ | closure _ _ | prim _ _ => cases h
  | prim p as =>
    cases u with
    | prim q bs =>
      obtain ⟨hp, hargs⟩ := (Bool.and_eq_true _ _).mp h
      simp only [summary, eq_of_beq hp, Atom.summaryAll_of_alphaAll hargs]
    | ret _ | enter _ _ | call _ | data _ _ | closure _ _ | sel _ _ _ => cases h

theorem Alts.summary_of_alphaDefault {c d : Option Call} (h : alphaDefault env c d = true) :
    c.elim 19 Call.summary = d.elim 19 Call.summary := by
  cases c with
  | none =>
    cases d with
    | none => rfl
    | some d => cases h
  | some c =>
    cases d with
    | none => cases h
    | some d => exact Call.summary_of_alpha h

theorem Alts.summary_of_alpha {x y : Alts} (h : x.alpha env y = true) : x.summary = y.summary := by
  obtain ⟨xs, default⟩ := x
  obtain ⟨ys, default'⟩ := y
  obtain ⟨hdefault, harms⟩ := (Bool.and_eq_true _ _).mp h
  simp only [summary, summary_of_alphaDefault hdefault]
  clear h hdefault
  induction xs generalizing ys with
  | nil =>
    cases ys with
    | nil => rfl
    | cons b ys => cases harms
  | cons a xs ih =>
    cases ys with
    | nil => cases harms
    | cons b ys =>
      simp only [alphaArms, Bool.and_eq_true] at harms
      obtain ⟨⟨-, hcall⟩, hrest⟩ := harms
      simp only [List.foldr_cons, Call.summary_of_alpha hcall, ih ys hrest]

theorem Code.summary_of_alpha {c d : Code} (h : c.alpha d env = true) : c.summary = d.summary := by
  -- The pairing grows under a binding, so it is not fixed in the induction.
  induction c generalizing d env with
  | done t =>
    cases d with
    | done u => simp only [summary, Tail.summary_of_alpha h]
    | bind _ _ _ | assert _ _ _ | branch _ _ _ | switch _ _ => cases h
  | bind vars t c ih =>
    cases d with
    | bind vars' u d =>
      simp only [alpha, Bool.and_eq_true] at h
      obtain ⟨⟨-, htail⟩, hrest⟩ := h
      simp only [summary, Tail.summary_of_alpha htail, ih hrest]
    | done _ | assert _ _ _ | branch _ _ _ | switch _ _ => cases h
  | assert a ctor c ih =>
    cases d with
    | assert b ctor' d =>
      simp only [alpha, Bool.and_eq_true, Ctor.same_iff] at h
      obtain ⟨⟨⟨-, htag⟩, -⟩, hrest⟩ := h
      simp only [summary, htag, ih hrest]
    | done _ | bind _ _ _ | branch _ _ _ | switch _ _ => cases h
  | branch test yes no =>
    cases d with
    | branch test' yes' no' =>
      simp only [alpha, Bool.and_eq_true] at h
      obtain ⟨⟨-, hyes⟩, hno⟩ := h
      simp only [summary, Call.summary_of_alpha hyes, Call.summary_of_alpha hno]
    | done _ | bind _ _ _ | assert _ _ _ | switch _ _ => cases h
  | switch a alts =>
    cases d with
    | switch b alts' =>
      obtain ⟨-, halts⟩ := (Bool.and_eq_true _ _).mp h
      simp only [summary, Alts.summary_of_alpha halts]
    | done _ | bind _ _ _ | assert _ _ _ | branch _ _ _ => cases h

/-- Fragments that are equivalent under some pairing of their variables have equal summaries, and so
have equivalent definitions. -/
theorem summary_eq_of_alpha :
    (∀ (env : Pairing) (a b : Atom), a.alpha env b = true → a.summary = b.summary) ∧
      (∀ (env : Pairing) (c d : Call), c.alpha env d = true → c.summary = d.summary) ∧
      (∀ (env : Pairing) (t u : Tail), t.alpha env u = true → t.summary = u.summary) ∧
      (∀ (env : Pairing) (x y : Alts), x.alpha env y = true → x.summary = y.summary) ∧
      (∀ (env : Pairing) (c d : Code), c.alpha d env = true → c.summary = d.summary) ∧
      (∀ b c : Block, b.alphaEquiv c = true → b.summary = c.summary) ∧
      (∀ k l : Closure, k.alphaEquiv l = true → k.summary = l.summary) ∧
      ∀ t u : TopLevel, t.alphaEquiv u = true → t.summary = u.summary := by
  refine ⟨fun _ _ _ => Atom.summary_of_alpha, fun _ _ _ => Call.summary_of_alpha,
    fun _ _ _ => Tail.summary_of_alpha, fun _ _ _ => Alts.summary_of_alpha,
    fun _ _ _ => Code.summary_of_alpha, fun b c h => ?_, fun k l h => ?_, fun t u h => ?_⟩
  · exact Code.summary_of_alpha ((Bool.and_eq_true _ _).mp h).2
  · exact Tail.summary_of_alpha ((Bool.and_eq_true _ _).mp h).2
  · exact Tail.summary_of_alpha ((Bool.and_eq_true _ _).mp h).2

def Block.shadowing : Block where
  params := [⟨1⟩, ⟨2⟩]
  code := .bind [⟨1⟩] (.prim .add [.temp ⟨1⟩, .temp ⟨2⟩]) (.done (.ret [.temp ⟨1⟩, .temp ⟨9⟩]))

/-- The same with a name for each variable; the one that is free is called as before. -/
def Block.unshadowed : Block where
  params := [⟨3⟩, ⟨4⟩]
  code := .bind [⟨5⟩] (.prim .add [.temp ⟨3⟩, .temp ⟨4⟩]) (.done (.ret [.temp ⟨5⟩, .temp ⟨9⟩]))

theorem summary_eq_of_alpha_shadowing : Block.shadowing.alphaEquiv .unshadowed = true ∧
    Block.shadowing.summary = Block.unshadowed.summary :=
  ⟨by decide +kernel, summary_eq_of_alpha.2.2.2.2.2.1 _ _ (by decide +kernel)⟩

end MonadicIR
