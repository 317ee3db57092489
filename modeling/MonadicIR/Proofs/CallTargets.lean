import MonadicIR.Proofs.ReturnRanks
import MonadicIR.Proofs.Vocabulary
import Mathlib.Data.Multiset.DershowitzManna

namespace MonadicIR

theorem Alts.tighten_tighten {p : Program} {alts alts' : Alts} {texts : List String}
    (h : alts.tighten p = .ok (alts', texts)) : alts'.tighten p = .ok (alts', []) := by
  have hsame := h
  obtain ⟨_ | ⟨first, rest⟩, _ | c⟩ := alts
  · cases h
    rfl
  · cases h
    rfl
  · cases h
    rfl
  · simp only [tighten] at h
    split at h
    · cases h
      rfl
    · split at h
      · obtain ⟨siblings, -, h⟩ := bind_eq_ok_iff.mp h
        split at h
        · cases h
          rfl
        · cases h
          exact hsame
      · cases h
        exact hsame

theorem Alts.forall_mem_calls {alts : Alts} {P : Call → Prop} : (∀ c ∈ alts.calls, P c) ↔
    (∀ arm ∈ alts.arms, P arm.call) ∧ ∀ c, alts.default = some c → P c := by
  simp [calls, or_imp, forall_and]

namespace Code

/-- The calls in the middle go to blocks of a first kind, one at the end to a second, and branches
to a third. -/
def CallsTo (f g k : BlockId → Prop) : Code → Prop
  | done t => t.CallsTo g
  | bind _ t rest => t.CallsTo f ∧ rest.CallsTo f g k
  | assert _ _ rest => rest.CallsTo f g k
  | branch _ yes no => k yes.target ∧ k no.target
  | switch _ alts => ∀ c ∈ alts.calls, k c.target

variable {f f' g g' k k' : BlockId → Prop} {code : Code}

theorem CallsTo.mono (h : code.CallsTo f g k) (hf : ∀ b, f b → f' b) (hg : ∀ b, g b → g' b)
    (hk : ∀ b, k b → k' b) : code.CallsTo f' g' k' := by
  induction code with
  | done t => exact fun c hc => hg _ (h c hc)
  | bind vars t rest ih => exact ⟨fun c hc => hf _ (h.1 c hc), ih h.2⟩
  | assert a ctor rest ih => exact ih h
  | branch test yes no => exact ⟨hk _ h.1, hk _ h.2⟩
  | switch a alts => exact fun c hc => hk _ (h c hc)

theorem callsTo_of_calls (h : ∀ c ∈ code.calls, f c.target) : code.CallsTo f f f := by
  induction code with
  | done t => exact fun c hc => h c (by simp [calls, hc])
  | bind vars t rest ih =>
    exact ⟨fun c hc => h c (by simp [calls, hc]), ih fun c hc => h c (List.mem_append_right _ hc)⟩
  | assert a ctor rest ih => exact ih h
  | branch test yes no => exact ⟨h yes (by simp [calls]), h no (by simp [calls])⟩
  | switch a alts => exact h

theorem CallsTo.endCalls (h : code.CallsTo f g k) (hgk : ∀ b, g b → k b) :
    ∀ c ∈ code.endCalls, k c.target := by
  induction code with
  | done t =>
    cases t with
    | call c => exact fun d hd => List.mem_singleton.mp hd ▸ hgk _ (h c rfl)
    | ret | enter | data | closure | sel | prim => simp [Code.endCalls]
  | bind vars t rest ih => exact ih h.2
  | assert a ctor rest ih => exact ih h
  | branch test yes no => exact List.forall_mem_cons.mpr ⟨h.1, by simpa using h.2⟩
  | switch a alts => exact h

theorem callsTo_copyFresh {m : Temps} {s : Subst} (h : code.CallsTo f g k) :
    (code.copyFresh m s).1.CallsTo f g k := by
  have htail {f : BlockId → Prop} {t : Tail} {s : Subst} (ht : t.CallsTo f) :
      (t.apply s).CallsTo f := by
    cases t with
    | call c =>
      rintro d ⟨⟩
      exact ht c rfl
    | ret | enter | data | closure | sel | prim => exact fun d hd => by cases hd
  induction code generalizing m s with
  | done t => exact htail h
  | bind vars t rest ih => exact ⟨htail h.1, ih h.2⟩
  | assert a ctor rest ih => exact ih h
  | branch test yes no => exact h
  | switch a alts =>
    intro c hc
    simp only [Alts.calls_mapCalls, List.mem_map] at hc
    obtain ⟨d, hd, rfl⟩ := hc
    exact h d hd

theorem CallsTo.andThen {next r : Code} {vars : List Temp} (h : code.CallsTo f f k')
    (hnext : next.CallsTo f g k) (hr : code.andThen vars next = .ok r) : r.CallsTo f g k := by
  induction code generalizing r with
  | done t =>
    cases hr
    exact ⟨h, hnext⟩
  | bind vs t rest ih =>
    obtain ⟨r', hr', rfl⟩ := map_eq_ok_iff.mp hr
    exact ⟨h.1, ih h.2 hr'⟩
  | assert a ctor rest ih =>
    obtain ⟨r', hr', rfl⟩ := map_eq_ok_iff.mp hr
    exact (ih h hr' :)
  | branch | switch => cases hr

/-- If all branches agree, they lead to such a block. -/
def Agrees (g : BlockId → Prop) : Code → Prop
  | bind _ _ rest | assert _ _ rest => rest.Agrees g
  | branch _ yes no => yes = no → g yes.target
  | switch _ alts => ∀ c, agreed? alts.calls = some c → g c.target
  | done _ => True

theorem Agrees.mono (h : code.Agrees g) (hg : ∀ b, g b → g' b) : code.Agrees g' := by
  induction code with
  | done t => trivial
  | bind vars t rest ih => exact ih h
  | assert a ctor rest ih => exact ih h
  | branch test yes no => exact fun heq => hg _ (h heq)
  | switch a alts => exact fun c hc => hg _ (h c hc)

theorem agrees_of_callsTo (h : code.CallsTo f g k) (hk : ∀ b, k b → g b) : code.Agrees g := by
  induction code with
  | done t => trivial
  | bind vars t rest ih => exact ih h.2
  | assert a ctor rest ih => exact ih h
  | branch test yes no => exact fun _ => hk _ h.1
  | switch a alts => exact fun c hc => hk _ (h c (agreed?_eq_some hc).1)

/-- If code may return, its calls lead there, and so do its branches where they agree. -/
theorem MayReturn.agrees (h : code.MayReturn g) : code.Agrees g := by
  induction code with
  | done t => trivial
  | bind vars t rest ih => exact ih h.2
  | assert a ctor rest ih => exact ih h
  | branch test yes no =>
    rintro rfl
    exact h.elim id id
  | switch a alts =>
    intro c hc
    obtain ⟨d, hd, hg⟩ := h
    exact (agreed?_eq_some hc).2 d hd ▸ hg

theorem MayReturn.callsTo (h : code.MayReturn g) (hk : ∀ c ∈ code.calls, k c.target) :
    code.CallsTo g g k := by
  induction code with
  | done t => exact h
  | bind vars t rest ih => exact ⟨h.1, ih h.2 fun c hc => hk c (List.mem_append_right _ hc)⟩
  | assert a ctor rest ih => exact ih h hk
  | branch test yes no => exact ⟨hk yes (by simp [calls]), hk no (by simp [calls])⟩
  | switch a alts => exact hk

/-- The block is there, and is not noted as endless. -/
def Unflagged (p : Program) (b : BlockId) : Prop :=
  ∃ block, p.blocks[b.index]? = some block ∧ block.notes.neverReturns = false

/-- Tidied code waits for no block that never returns. Where it is cut short, the last call in its
middle becomes the one at its end. -/
theorem CallsTo.tidy {p : Program} {code' : Code} {texts : List String} (h : code.CallsTo f g k)
    (hagrees : code.Agrees g) (hfg : ∀ b, f b → g b) (hres : code.tidy p = .ok (code', texts)) :
    code'.CallsTo (fun b => f b ∧ Unflagged p b) g k := by
  induction code generalizing code' texts with
  | bind vars t rest ih =>
    have hend : t.CallsTo g := fun c hc => hfg _ (h.1 c hc)
    simp only [Code.tidy, bind_eq_ok_iff] at hres
    obtain ⟨never, hnever, hres⟩ := hres
    split at hres
    · cases hres
      exact hend
    · rename_i hgoes
      obtain ⟨⟨rest', texts'⟩, hrest, hres⟩ := bind_eq_ok_iff.mp hres
      have hrest' := ih h.2 hagrees hrest
      split at hres
      · cases hres
        exact hrest'
      · split at hres
        · cases hres
          exact hend
        · cases hres
          refine ⟨fun c hc => ⟨h.1 c hc, ?_⟩, hrest'⟩
          obtain rfl : t = .call c := by cases t <;> simp_all [Tail.call?]
          obtain ⟨block, hblock, rfl⟩ := map_eq_ok_iff.mp hnever
          exact ⟨block, Program.block_eq_ok_iff.mp hblock, by simp_all⟩
  | assert a ctor rest ih =>
    obtain ⟨⟨rest', texts'⟩, hrest, heq⟩ := map_eq_ok_iff.mp hres
    cases heq
    exact (ih h hagrees hrest :)
  | branch test yes no =>
    simp only [Code.tidy, Except.ok.injEq] at hres
    split at hres
    · cases hres
      rintro c ⟨⟩
      exact hagrees ‹_›
    · cases hres
      exact h
  | switch a alts =>
    simp only [Code.tidy, Except.ok.injEq] at hres
    split at hres
    · rename_i c hagreed
      cases hres
      rintro d ⟨⟩
      exact hagrees c hagreed
    · cases hres
      exact h
  | done t =>
    cases hres
    exact h

/-- Simplifying does not make a jump of the case at the end, if there is one. -/
def LeavesChoice (p : Program) : Code → Prop
  | bind _ _ rest | assert _ _ rest => rest.LeavesChoice p
  | switch _ alts => ∀ r, alts.tighten p = .ok r → r.1.only? = none
  | done _ | branch .. => True

instance decidableLeavesChoice (p : Program) : (code : Code) → Decidable (code.LeavesChoice p)
  | bind _ _ rest | assert _ _ rest => decidableLeavesChoice p rest
  | switch _ alts =>
    match h : alts.tighten p with
    | .ok r => decidable_of_iff (r.1.only? = none) (by simp [LeavesChoice, h])
    | .error _ => isTrue (by simp [LeavesChoice, h])
  | done _ | branch .. => isTrue trivial

variable {p q : Program} {code' : Code} {texts : List String}

theorem CallsTo.simplifyCases (h : code.CallsTo f g k) (hchoice : code.LeavesChoice p)
    (hres : code.simplifyCases p = .ok (code', texts)) : code'.CallsTo f g k := by
  induction code generalizing code' texts with
  | bind vars t rest ih =>
    obtain ⟨⟨rest', texts'⟩, hrest, heq⟩ := map_eq_ok_iff.mp hres
    cases heq
    exact ⟨h.1, ih h.2 hchoice hrest⟩
  | assert a ctor rest ih =>
    obtain ⟨⟨rest', texts'⟩, hrest, heq⟩ := map_eq_ok_iff.mp hres
    cases heq
    exact (ih h hchoice hrest :)
  | switch a alts =>
    simp only [Code.simplifyCases, bind_eq_ok_iff] at hres
    obtain ⟨⟨alts', texts'⟩, htighten, hres⟩ := hres
    rw [hchoice _ htighten] at hres
    cases hres
    exact fun c hc => h c (Alts.mem_calls_of_tighten htighten hc)
  | done | branch =>
    cases hres
    exact h

theorem leavesChoice_simplifyCases (h : code.simplifyCases p = .ok (code', texts)) :
    code'.LeavesChoice p := by
  induction code generalizing code' texts with
  | bind vars t rest ih =>
    obtain ⟨⟨rest', texts'⟩, hrest, heq⟩ := map_eq_ok_iff.mp h
    cases heq
    exact (ih hrest :)
  | assert a ctor rest ih =>
    obtain ⟨⟨rest', texts'⟩, hrest, heq⟩ := map_eq_ok_iff.mp h
    cases heq
    exact (ih hrest :)
  | switch a alts =>
    simp only [Code.simplifyCases, bind_eq_ok_iff] at h
    obtain ⟨⟨alts', texts'⟩, htighten, h⟩ := h
    split at h
    · cases h
      trivial
    · rename_i honly
      cases h
      intro r hr
      rw [Alts.tighten_tighten htighten] at hr
      cases hr
      exact honly
  | done | branch =>
    cases h
    trivial

theorem LeavesChoice.tidy (h : code.LeavesChoice p) (hres : code.tidy q = .ok (code', texts)) :
    code'.LeavesChoice p := by
  induction code generalizing code' texts with
  | bind vars t rest ih =>
    simp only [Code.tidy, bind_eq_ok_iff] at hres
    obtain ⟨never, -, hres⟩ := hres
    split at hres
    · cases hres
      trivial
    · obtain ⟨⟨rest', texts'⟩, hrest, hres⟩ := bind_eq_ok_iff.mp hres
      have hrest' := ih h hrest
      split at hres
      · cases hres
        exact hrest'
      · split at hres <;> cases hres
        · trivial
        · exact hrest'
  | assert a ctor rest ih =>
    obtain ⟨⟨rest', texts'⟩, hrest, heq⟩ := map_eq_ok_iff.mp hres
    cases heq
    exact (ih h hrest :)
  | branch test yes no =>
    simp only [Code.tidy, Except.ok.injEq] at hres
    split at hres <;> cases hres <;> trivial
  | switch a alts =>
    simp only [Code.tidy, Except.ok.injEq] at hres
    split at hres <;> cases hres
    · trivial
    · exact h
  | done t =>
    cases hres
    trivial

theorem LeavesChoice.congr (h : code.LeavesChoice p) (hpq : q.datatypes = p.datatypes) :
    code.LeavesChoice q := by
  have hsiblings : q.siblings = p.siblings := by
    funext ctor
    simp only [Program.siblings, hpq]
  induction code with
  | bind vars t rest ih => exact ih h
  | assert a ctor rest ih => exact ih h
  | switch a alts =>
    intro r hr
    refine h r ?_
    rw [← hr, Alts.tighten, Alts.tighten, hsiblings]
  | done | branch => trivial

section Load

variable {α : Type} {inner outer inner' outer' : BlockId → α}

/-- The weights of the calls that are not branches. Those in the middle are weighed apart from the
one at the end. -/
def load (inner outer : BlockId → α) : Code → Multiset α
  | done t => (t.call?.map fun c => outer c.target).elim 0 fun x => {x}
  | bind _ t rest =>
    (t.call?.map fun c => inner c.target).elim 0 (fun x => {x}) + rest.load inner outer
  | assert _ _ rest => rest.load inner outer
  | branch .. | switch .. => 0

theorem load_andThen {next r : Code} {vars : List Temp} (h : code.andThen vars next = .ok r) :
    r.load inner outer = code.load inner inner + next.load inner outer := by
  induction code generalizing r with
  | done t =>
    cases h
    rfl
  | bind vs t rest ih =>
    obtain ⟨r', hr', rfl⟩ := map_eq_ok_iff.mp h
    simp only [load, ih hr', add_assoc]
  | assert a ctor rest ih =>
    obtain ⟨r', hr', rfl⟩ := map_eq_ok_iff.mp h
    exact (ih hr' :)
  | branch | switch => cases h

theorem CallsTo.load_congr (h : code.CallsTo f g k) (hinner : ∀ b, f b → inner b = inner' b)
    (houter : ∀ b, g b → outer b = outer' b) : code.load inner outer = code.load inner' outer' := by
  have htail {f : BlockId → Prop} {inner inner' : BlockId → α} {t : Tail} (ht : t.CallsTo f)
      (hf : ∀ b, f b → inner b = inner' b) :
      (t.call?.map fun c => inner c.target) = t.call?.map fun c => inner' c.target :=
    Option.map_congr fun c hc => hf _ (ht c hc)
  induction code with
  | done t => simp only [load, htail h houter]
  | bind vars t rest ih => simp only [load, htail h.1 hinner, ih h.2]
  | assert a ctor rest ih => exact (ih h :)
  | branch | switch => rfl

theorem CallsTo.lt_of_mem_load [LT α] {x y : α} (h : code.CallsTo f g k)
    (hinner : ∀ b, f b → inner b < x)
    (houter : ∀ b, g b → outer b < x) (hy : y ∈ code.load inner outer) : y < x := by
  have htail {f : BlockId → Prop} {inner : BlockId → α} {t : Tail} (ht : t.CallsTo f)
      (hf : ∀ b, f b → inner b < x)
      (hy : y ∈ (t.call?.map fun c => inner c.target).elim 0 fun x => ({x} : Multiset α)) :
        y < x := by
    cases hc : t.call? with
    | none => simp [hc] at hy
    | some c =>
      obtain rfl : y = inner c.target := by simpa [hc] using hy
      exact hf _ (ht c hc)
  induction code with
  | done t => exact htail h houter hy
  | bind vars t rest ih => exact (Multiset.mem_add.mp hy).elim (htail h.1 hinner) (ih h.2)
  | assert a ctor rest ih => exact ih h hy
  | branch | switch => simp [load] at hy

theorem load_lt_of_replace [Preorder α] {x : α} {kept new all : Multiset α}
    (hall : {x} + kept ≤ all)
    (hnew : ∀ y ∈ new, y < x) : Multiset.IsDershowitzMannaLT (new + kept) all := by
  obtain ⟨others, rfl⟩ := Multiset.le_iff_exists_add.mp hall
  refine ⟨kept, new, {x} + others, by simp, add_comm .., ?_, fun y hy => ⟨x, by simp, hnew y hy⟩⟩
  rw [add_comm {x} kept, add_assoc]

end Load

end Code

end MonadicIR
