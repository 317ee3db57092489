import MonadicIR.Proofs.CallTargets
import MonadicIR.Proofs.HandoffFamilies
import MonadicIR.Proofs.Settling
import Mathlib.Data.Prod.Lex

namespace MonadicIR

/-- Where a block stands: at its rank, at its component, or anywhere. -/
inductive Height where
  | ranked (n : Nat)
  | endless (component : Nat)
  | loose

namespace Height

variable {recursive : Nat → Bool} {h m t : Height}

/-- May a block at the first height wait for one at the second? -/
@[simp] def Waits : Height → Height → Prop
  | ranked n, ranked k => k < n
  | endless _, ranked _ => True
  | loose, _ => True
  | _, _ => False

/-- May a block at the first height end in a call of one at the second? -/
@[simp] def Ends (recursive : Nat → Bool) : Height → Height → Prop
  | ranked n, ranked k => k < n
  | endless _, ranked _ => True
  | endless i, endless j => j < i ∨ j = i ∧ recursive i = true
  | loose, _ => True
  | _, _ => False

/-- The height of a copy that hands its result on. -/
@[simp] def copy : Height → Height
  | ranked n => ranked n
  | endless _ | loose => loose

@[simp] def Falls (recursive : Nat → Bool) : Height → Prop
  | ranked _ => True
  | endless i => recursive i = false
  | loose => False

theorem Waits.ends (hm : h.Waits m) : h.Ends recursive m := by
  cases h <;> cases m <;> simp_all

theorem Ends.waits (hloose : h ≠ loose) (hm : h.Ends recursive m) (ht : m.Waits t) : h.Waits t := by
  cases h <;> cases m <;> cases t <;> simp_all
  omega

theorem Ends.trans (hloose : h ≠ loose) (hm : h.Ends recursive m) (ht : m.Ends recursive t) :
    h.Ends recursive t := by
  cases h <;> cases m <;> cases t <;> simp_all <;> grind

/-- A block that is waited for has a rank, so the one at its end has a smaller one. -/
theorem Waits.trans (hloose : h ≠ loose) (hm : h.Waits m) (ht : m.Ends recursive t) :
    h.Waits t := by
  cases h <;> cases m <;> cases t <;> simp_all
  omega

theorem Ends.bounded (hloose : h ≠ loose) (hm : h.Ends recursive m) : m ≠ loose := by
  cases h <;> cases m <;> simp_all

theorem Waits.ends_copy (hloose : h ≠ loose) (hm : h.Waits m) : h.Ends recursive m.copy := by
  cases h <;> cases m <;> simp_all

theorem Ends.copy (ht : h.Ends recursive t) : h.copy.Ends recursive t.copy := by
  cases h <;> cases t <;> simp_all

theorem Ends.waits_copy (ht : h.Ends recursive t) : h.copy.Waits t := by
  cases h <;> cases t <;> simp_all

/-- Ranks weigh less than components. A call in the middle has one extra. -/
@[simp] def weight (extra : Nat) : Height → Nat ×ₗ Nat
  | ranked n => toLex (0, 2 * n + extra)
  | endless i => toLex (1, 2 * i + extra)
  | loose => toLex (2, extra)

theorem Ends.weight_le (hloose : h ≠ loose) (hm : h.Ends recursive m) :
    m.weight 0 ≤ h.weight 0 := by
  cases h <;> cases m <;> simp_all [Prod.Lex.toLex_le_toLex]
  all_goals omega

theorem Waits.weight_copy_lt (hloose : h ≠ loose) (hm : h.Waits m) :
    m.copy.weight 0 < m.weight 1 := by
  cases h <;> cases m <;> simp_all [Prod.Lex.toLex_lt_toLex]

theorem Waits.weight_lt (hloose : h ≠ loose) (hm : h.Waits m) (ht : m.Ends recursive t) :
    t.weight 1 < m.weight 1 := by
  cases h <;> cases m <;> cases t <;> simp_all [Prod.Lex.toLex_lt_toLex]

theorem Falls.weight_inner_lt (hm : m.Falls recursive) (ht : m.Waits t) :
    t.weight 1 < m.weight 0 := by
  cases m <;> cases t <;> simp_all [Prod.Lex.toLex_lt_toLex]
  omega

theorem Falls.weight_outer_lt (hm : m.Falls recursive) (ht : m.Ends recursive t) :
    t.weight 0 < m.weight 0 := by
  cases m <;> cases t <;> simp_all [Prod.Lex.toLex_lt_toLex]

end Height

theorem Edit.addDerivedBlock_eq_ok {p q : Program} {source d : BlockId} {block : Block}
    (h : addDerivedBlock source block p = .ok d q) : ∃ blocks, q = { p with blocks } := by
  simp only [addDerivedBlock, bind_ok_iff, addBlock, update_eq_ok_iff, modifyBlock_eq_ok_iff,
    pure_ok_iff, exists_unit] at h
  obtain ⟨_, p1, hp1, p2, ⟨old, hold, rfl⟩, rfl, rfl⟩ := h
  obtain ⟨rfl, rfl⟩ := Prod.mk.inj hp1
  exact ⟨_, rfl⟩

def Program.recursiveAt (p : Program) (i : Nat) : Bool := (p.components[i]?).any Component.recursive

/-- What is known of the heights so far. -/
structure Heights where
  of : BlockId → Option Height

namespace Heights

instance : Preorder Heights where
  le w w' := ∀ b h, w.of b = some h → w'.of b = some h
  le_refl _ _ _ h := h
  le_trans _ _ _ h h' b l hb := h' b l (h b l hb)

variable {w w' : Heights} {P P' : Height → Prop} {b d : BlockId} {h : Height} {code : Code}

def At (w : Heights) (P : Height → Prop) (b : BlockId) : Prop := ∃ h, w.of b = some h ∧ P h

abbrev Known (w : Heights) : BlockId → Prop := w.At fun _ => True

theorem At.imp (hb : w.At P b) (hle : w ≤ w') (hP : ∀ h, P h → P' h) : w'.At P' b := by
  obtain ⟨h, hh, hPh⟩ := hb
  exact ⟨h, hle b h hh, hP h hPh⟩

theorem At.mono (hb : w.At P b) (hle : w ≤ w') : w'.At P b := hb.imp hle fun _ => id

theorem At.known (hb : w.At P b) : w.Known b := hb.imp (le_refl w) fun _ _ => trivial

theorem At.prop (hb : w.At P b) (hh : w.of b = some h) : P h := by
  obtain ⟨h', hh', hP⟩ := hb
  exact Option.mem_unique hh hh' ▸ hP

def add (w : Heights) (d : BlockId) (h : Height) : Heights := ⟨Function.update w.of d (some h)⟩

@[simp] theorem of_add_self : (w.add d h).of d = some h := Function.update_self ..

theorem of_add_of_ne (hb : b ≠ d) : (w.add d h).of b = w.of b := Function.update_of_ne hb ..

theorem le_add (hd : w.of d = none) : w ≤ w.add d h := by
  intro b l hb
  have hne : b ≠ d := by
    rintro rfl
    rw [hd] at hb
    cases hb
  rw [of_add_of_ne hne, hb]

/-- The code may stand in a block of this height, when inlining is done with it. -/
def Admits (start : Program) (w : Heights) (h : Height) (code : Code) : Prop :=
  code.CallsTo (w.At h.Waits) (w.At (h.Ends start.recursiveAt)) w.Known

/-- The code of a block that inlining has yet to come to: it may still wait for what it may end in. -/
structure Awaits (start : Program) (w : Heights) (h : Height) (code : Code) : Prop where
  bounded : h ≠ .loose
  calls : code.CallsTo (w.At (h.Ends start.recursiveAt)) (w.At (h.Ends start.recursiveAt)) w.Known
  agrees : code.Agrees (w.At (h.Ends start.recursiveAt))
  choice : code.LeavesChoice start

variable {start : Program}

theorem Admits.mono (hcode : Admits start w h code) (hle : w ≤ w') : Admits start w' h code :=
  Code.CallsTo.mono hcode (fun _ hb => hb.mono hle) (fun _ hb => hb.mono hle) fun _ hb =>
    hb.mono hle

theorem Awaits.mono (hcode : Awaits start w h code) (hle : w ≤ w') : Awaits start w' h code where
  bounded := hcode.bounded
  calls := hcode.calls.mono (fun _ hb => hb.mono hle) (fun _ hb => hb.mono hle) fun _ hb =>
    hb.mono hle
  agrees := hcode.agrees.mono fun _ hb => hb.mono hle
  choice := hcode.choice

/-- A block at its height. -/
structure Fits (start : Program) (todo : Set BlockId) (w : Heights) (b : BlockId) (h : Height)
    (block : Block) : Prop where
  derived : ∀ d ∈ block.derived, w.of d = some h.copy
  endless : ∀ i, h = .endless i → block.notes.neverReturns = true ∧ block.notes.component = some i
  awaits : b ∈ todo → Awaits start w h block.code
  admits : b ∉ todo → Admits start w h block.code

/-- All blocks stand where they are known to stand. Those that are still to be done are among them. -/
structure Holds (start : Program) (todo : Set BlockId) (w : Heights) (p : Program) : Prop where
  components : p.components = start.components
  datatypes : p.datatypes = start.datatypes
  known : ∀ b ∈ todo, w.Known b
  fits : ∀ b h, w.of b = some h → ∃ block, p.blocks[b.index]? = some block ∧
    Fits start todo w b h block

variable {todo : Set BlockId} {p q : Program} {block : Block}

theorem Fits.mono (hb : Fits start todo w b h block) (hle : w ≤ w') :
    Fits start todo w' b h block where
  derived d hd := hle d _ (hb.derived d hd)
  endless := hb.endless
  awaits htodo := (hb.awaits htodo).mono hle
  admits hdone := (hb.admits hdone).mono hle

theorem Fits.calls (hb : Fits start todo w b h block) : block.code.CallsTo
    (w.At (h.Ends start.recursiveAt)) (w.At (h.Ends start.recursiveAt)) w.Known := by
  by_cases htodo : b ∈ todo
  · exact (hb.awaits htodo).calls
  · exact Code.CallsTo.mono (hb.admits htodo) (fun _ ht => ht.imp (le_refl w) fun _ =>
      Height.Waits.ends)
      (fun _ => id) fun _ => id

namespace Holds

variable (hp : Holds start todo w p)

include hp

theorem fits_of (hh : w.of b = some h) (hblock : p.blocks[b.index]? = some block) :
    Fits start todo w b h block := by
  obtain ⟨block', hblock', hfits⟩ := hp.fits b h hh
  exact Option.mem_unique hblock hblock' ▸ hfits

theorem index_lt (hb : w.Known b) : b.index < p.blocks.size := by
  obtain ⟨h, hh, -⟩ := hb
  obtain ⟨block, hblock, -⟩ := hp.fits b h hh
  exact (Array.getElem?_eq_some_iff.mp hblock).1

theorem grow (hcomponents : q.components = p.components) (hdatatypes : q.datatypes = p.datatypes)
    (hblocks : ∀ i : Nat, i < p.blocks.size → q.blocks[i]? = p.blocks[i]?) :
    Holds start todo w q where
  components := hcomponents.trans hp.components
  datatypes := hdatatypes.trans hp.datatypes
  known := hp.known
  fits b h hh := by
    obtain ⟨block, hblock, hfits⟩ := hp.fits b h hh
    exact ⟨block, (hblocks _ (hp.index_lt ⟨h, hh, trivial⟩)).trans hblock, hfits⟩

theorem congr (hcomponents : q.components = p.components) (hdatatypes : q.datatypes = p.datatypes)
    (hblocks : q.blocks = p.blocks) : Holds start todo w q :=
  hp.grow hcomponents hdatatypes fun i _ => by rw [hblocks]

theorem finish (hcomponents : q.components = p.components) (hdatatypes : q.datatypes = p.datatypes)
    (hblock : p.blocks[b.index]? = some block)
    (hlookup : ∀ x : BlockId, q.blocks[x.index]? = if x = b then some { block with code } else
      p.blocks[x.index]?)
    (hh : w.of b = some h) (hcode : Admits start w h code) : Holds start (todo \ {b}) w q where
  components := hcomponents.trans hp.components
  datatypes := hdatatypes.trans hp.datatypes
  known x hx := hp.known x hx.1
  fits x l hl := by
    obtain ⟨block', hblock', hfits⟩ := hp.fits x l hl
    rw [hlookup]
    by_cases hxb : x = b
    · subst hxb
      obtain rfl := Option.mem_unique hh hl
      obtain rfl := Option.mem_unique hblock hblock'
      refine ⟨{ block with code }, if_pos rfl, ?_⟩
      exact ⟨hfits.derived, hfits.endless, fun hx => absurd rfl hx.2, fun _ => hcode⟩
    · refine ⟨block', (if_neg hxb).trans hblock', ?_⟩
      exact ⟨hfits.derived, hfits.endless, fun hx => hfits.awaits hx.1,
        fun hx => hfits.admits fun htodo => hx ⟨htodo, hxb⟩⟩

theorem setCode (hblock : p.blocks[b.index]? = some block) (hh : w.of b = some h)
    (hcode : Admits start w h code) :
    Holds start (todo \ {b}) w (p.setBlock b { block with code }) :=
  hp.finish rfl rfl hblock (Program.getElem?_setBlock hblock _) hh hcode

theorem register (hh : w.of b = some h) {new : Block} (hcode : new.code = Block.placeholder.code)
    (hderived : new.derived = []) (hadd : Edit.addDerivedBlock b new p = .ok d q) :
    w.of d = none ∧ Holds start todo (w.add d h.copy) q := by
  obtain ⟨block, hblock, hfits⟩ := hp.fits b h hh
  obtain ⟨rfl, -, -⟩ := Edit.addDerivedBlock_ok hadd (hp.index_lt ⟨h, hh, trivial⟩)
  have hlookup := Edit.getElem?_addDerivedBlock hadd hblock
  have hnew : w.of ⟨p.blocks.size⟩ = none := by
    refine Option.eq_none_iff_forall_ne_some.mpr fun l hl => ?_
    exact Nat.lt_irrefl _ (hp.index_lt ⟨l, hl, trivial⟩)
  have hle : w ≤ w.add ⟨p.blocks.size⟩ h.copy := le_add hnew
  obtain ⟨blocks, rfl⟩ := Edit.addDerivedBlock_eq_ok hadd
  refine ⟨hnew, hp.components, hp.datatypes, fun x hx => (hp.known x hx).mono hle, fun x l hl => ?_⟩
  by_cases hxd : x = ⟨p.blocks.size⟩
  · subst hxd
    obtain rfl : h.copy = l := by simpa using hl
    have hxb : (⟨p.blocks.size⟩ : BlockId) ≠ b := by
      rintro rfl
      rw [hnew] at hh
      cases hh
    refine ⟨new, by rw [hlookup, if_neg hxb,
      if_pos rfl], by simp [hderived], ?_, fun htodo => ?_, fun _ => ?_⟩
    · intro i hi
      cases h <;> cases hi
    · exact absurd (hp.index_lt (hp.known _ htodo)) (Nat.lt_irrefl _)
    · rw [Admits, hcode]
      rintro c ⟨⟩
  · have hl' : w.of x = some l := by rwa [of_add_of_ne hxd] at hl
    obtain ⟨block', hblock', hfits'⟩ := hp.fits x l hl'
    by_cases hxb : x = b
    · subst hxb
      obtain rfl := Option.mem_unique hh hl'
      have hfits1 := hfits.mono hle
      refine ⟨_, (hlookup x).trans (if_pos rfl), ?_, hfits1.endless, hfits1.awaits, hfits1.admits⟩
      exact List.forall_mem_append.mpr ⟨hfits1.derived, by simp⟩
    · exact ⟨block', by rw [hlookup, if_neg hxb, if_neg hxd, hblock'], hfits'.mono hle⟩

end Holds

end Heights

end MonadicIR
