import MonadicIR.Proofs.Correspondence
import MonadicIR.Proofs.Environment

namespace MonadicIR

def Rules.free (fits : List Ctor → Ctor → Prop) : Rules where
  price := 0
  roomy := False
  fits := fits

/-- The body of the block does what the meaning says. -/
def Block.Meets (m : Meaning) (fits : List Ctor → Ctor → Prop) (b : BlockId) (block : Block) :
    Prop :=
  ∀ ⦃depth cost args w e w'⦄, m.jump depth cost b args w e w' →
    block.params.length = args.length ∧
      block.code.Runs m (.free fits) depth cost (m.rank b) (Env.bind [] block.params args) w e w'

/-- The tail of the closure does what the meaning says. -/
def Closure.Meets (m : Meaning) (rank : Nat) (k : ClosureId) (closure : Closure) : Prop :=
  ∀ ⦃room cost stored args w e w'⦄, m.enter room cost (.closure k stored) args w e w' →
    (closure.stored ++ closure.params).length = (stored ++ args).length ∧
      ∃ u, u.EndsWithin cost rank ∧
        closure.tail.Runs m room (Env.bind [] (closure.stored ++ closure.params) (stored ++ args)) u
          w e w'

/-- All that the meaning speaks of is defined in the program, and does what the meaning says. -/
structure Realises (p : Program) (m : Meaning) (fits : List Ctor → Ctor → Prop)
    (rank : ClosureId → Nat) : Prop where
  top : ∀ t vs, m.top t vs → p.HasTop t vs
  alloc : ∀ k stored v, m.alloc k stored v → Allocates k stored v
  block : ∀ ⦃depth cost b args w e w'⦄, m.jump depth cost b args w e w' →
    ∃ block, p.blocks[b.index]? = some block ∧ block.Meets m fits b
  closure : ∀ ⦃room cost v args w e w'⦄, m.enter room cost v args w e w' → ∃ k stored closure,
    v = .closure k stored ∧ p.closures[k.index]? = some closure ∧ closure.Meets m (rank k) k

namespace Realises

variable {p : Program} {m : Meaning} {fits : List Ctor → Ctor → Prop} {rank : ClosureId → Nat}

/-- The program has the runs of blocks and values that have this cost and rank. -/
structure AdequateAt (p : Program) (m : Meaning) (rank : ClosureId → Nat) (cost r : Nat) :
    Prop where
  jump : ∀ ⦃depth b args w e w'⦄, m.rank b = r → m.jump depth cost b args w e w' →
    ∃ calls n, (p.counted calls).jump depth n b args w e w'
  enter : ∀ ⦃room k stored args w e w'⦄, rank k = r →
    m.enter room cost (.closure k stored) args w e w' →
      ∃ calls n, (p.counted calls).enter room n (.closure k stored) args w e w'

/-- What a tail needs of the blocks and values that it uses. -/
def Covers (p : Program) (m : Meaning) (rank : ClosureId → Nat) : Use → Prop
  | .nothing => True
  | .block n r => AdequateAt p m rank n r
  | .closure n => ∀ r, AdequateAt p m rank n r

theorem Covers.of_endsWithin {cost r : Nat}
    (h : ∀ n r', n < cost ∨ n ≤ cost ∧ r' < r → AdequateAt p m rank n r') {u : Use}
    (hu : u.EndsWithin cost r) : Covers p m rank u := by
  cases u with
  | nothing => trivial
  | block n r' => exact h n r' hu
  | closure n => exact fun r' => h n r' (.inl hu)

variable {env : Env} {w w' : World} {e : Result} {u : Use}

variable (h : Realises p m fits rank)

include h

theorem has {calls : Nat} {a : Atom} {v : Value} (ha : a.Has m.top env v) :
    a.Has (p.counted calls).top env v := by
  simpa using ha.mono h.top

theorem hasAll {calls : Nat} {as : List Atom} {vs : List Value}
    (hvs : Atom.HasAll m.top env as vs) : Atom.HasAll (p.counted calls).top env as vs := by
  simpa using hvs.mono h.top

theorem call {c : Call} {depth : Nat} (hu : Covers p m rank u)
    (hrun : c.Runs m depth env u w e w') :
    ∃ calls u', c.Runs (p.counted calls) depth env u' w e w' := by
  obtain ⟨vs, n, hv, rfl, hj⟩ := hrun
  obtain ⟨calls, n', hj'⟩ := hu.jump rfl hj
  exact ⟨calls, _, vs, n', h.hasAll hv, rfl, hj'⟩

theorem tail {t : Tail} {room : Nat} (hu : Covers p m rank u) (hrun : t.Runs m room env u w e w') :
    ∃ calls u', t.Runs (p.counted calls) room env u' w e w' := by
  cases t with
  | call c =>
    obtain ⟨depth, rfl, hc⟩ := hrun
    obtain ⟨calls, u', hc'⟩ := h.call hu hc
    exact ⟨calls, u', depth, rfl, hc'⟩
  | enter f args =>
    obtain ⟨v, vs, n, hf, hv, rfl, hrun⟩ := hrun
    obtain ⟨k, stored, -, rfl, -⟩ := h.closure hrun
    obtain ⟨calls, n', hrun'⟩ := (hu _).enter rfl hrun
    exact ⟨calls, _, _, vs, n', h.has hf, h.hasAll hv, rfl, hrun'⟩
  | ret | data | closure | sel | prim =>
    exact ⟨0, .nothing, Program.runs_of_simple (hrun.2.mono h.top h.alloc)⟩

theorem code {code : Code} {depth cost r : Nat}
    (hbelow : ∀ n r', n < cost ∨ n ≤ cost ∧ r' < r → AdequateAt p m rank n r')
    (hrun : code.Runs m (.free fits) depth cost r env w e w') :
    ∃ calls n, code.Runs (p.counted calls) .machine depth n 0 env w e w' := by
  induction code generalizing cost r env w with
  | done t =>
    obtain ⟨u, hu, ht⟩ := hrun
    obtain ⟨calls, u', ht'⟩ := h.tail (.of_endsWithin hbelow hu) ht
    exact ⟨calls, u'.cost + 1, u', u'.endsWithin_succ, ht'⟩
  | bind vars t rest ih =>
    obtain ⟨-, u, ⟨hu, rfl, ht⟩ | ⟨vs, w1, left, hl, ht, hlen, hrest⟩⟩ := hrun
    · have hu' := Covers.of_endsWithin hbelow (hu.mono le_rfl (Nat.zero_le r))
      obtain ⟨calls, u', ht'⟩ := h.tail hu' ht
      exact ⟨calls, u'.cost + 1, False.elim, u', .inl ⟨u'.endsWithin_succ, rfl, ht'⟩⟩
    · have hle : left ≤ cost := by
        simp only [Rules.free] at hl
        omega
      have hu' : Covers p m rank u := by
        -- after a use of blocks or closures something is left to spend, so the use was cheaper
        have hpos : u ≠ .nothing → u.cost < cost := fun hne => by
          have hzero : u.rankAfter r = 0 := by cases u <;> simp_all [Use.rankAfter]
          rw [hzero] at hrest
          have := hrest.cost_pos
          simp only [Rules.free] at hl
          omega
        cases u with
        | nothing => trivial
        | block n r' => exact hbelow n r' (.inl (hpos (by simp)))
        | closure n => exact fun r' => hbelow n r' (.inl (hpos (by simp)))
      obtain ⟨calls, u', ht'⟩ := h.tail hu' ht
      have hrank : u.rankAfter r ≤ r := by cases u <;> simp [Use.rankAfter]
      obtain ⟨calls', n, hrest'⟩ := ih (fun n r' hn => hbelow n r' (by omega)) hrest
      refine ⟨max calls calls', 1 + u'.cost + n, False.elim, u', .inr ⟨vs, w1, n, le_rfl,
        ht'.mono (p.meaning_mono _ (Nat.le_max_left ..)), hlen, ?_⟩⟩
      rw [Use.rankAfter_zero]
      exact hrest'.mono (p.meaning_mono _ (Nat.le_max_right ..)) (.refl _) le_rfl
        le_rfl
  | assert a ctor rest ih =>
    obtain ⟨c, fields, left, ha, hc, hl, hrest⟩ := hrun
    simp only [Rules.free] at hl
    obtain ⟨calls, n, hrest'⟩ := ih (fun n r' hn => hbelow n r' (by omega)) hrest
    exact ⟨calls, 1 + n, c, fields, n, h.has ha, hc, le_rfl, hrest'⟩
  | branch test yes no =>
    obtain ⟨b, u, ha, hu, hc⟩ := hrun
    obtain ⟨calls, u', hc'⟩ := h.call (.of_endsWithin hbelow hu) hc
    exact ⟨calls, u'.cost + 1, b, u', h.has ha, u'.endsWithin_succ, hc'⟩
  | switch a alts =>
    obtain ⟨c, fields, taken, u, ha, hs, -, hu, hc⟩ := hrun
    obtain ⟨calls, u', hc'⟩ := h.call (.of_endsWithin hbelow hu) hc
    exact ⟨calls, u'.cost + 1, c, fields, taken, u', h.has ha, hs, trivial, u'.endsWithin_succ, hc'⟩

theorem adequateAt_of_below {cost r : Nat}
    (hbelow : ∀ n r', n < cost ∨ n ≤ cost ∧ r' < r → AdequateAt p m rank n r') :
    AdequateAt p m rank cost r := by
  constructor
  · rintro depth b args w e w' rfl hj
    obtain ⟨block, hb, hmeets⟩ := h.block hj
    obtain ⟨hlen, hrun⟩ := hmeets hj
    obtain ⟨calls, n, hrun'⟩ := h.code hbelow hrun
    exact ⟨calls + 1, n, block, hb, hlen, hrun'⟩
  · rintro room k stored args w e w' rfl hrun
    obtain ⟨_, _, closure, ⟨⟩, hk, hmeets⟩ := h.closure hrun
    obtain ⟨hlen, u, hu, ht⟩ := hmeets hrun
    obtain ⟨calls, u', ht'⟩ := h.tail (.of_endsWithin hbelow hu) ht
    exact ⟨calls + 1, u'.cost + 1, k, stored, closure, u', rfl, hk, hlen, u'.endsWithin_succ, ht'⟩

theorem adequateAt (cost r : Nat) : AdequateAt p m rank cost r := by
  induction cost using Nat.strongRecOn generalizing r with
  | _ cost ihcost =>
    induction r using Nat.strongRecOn with
    | _ r ihrank =>
      refine h.adequateAt_of_below fun n r' hn => ?_
      obtain hn | ⟨hn, hr⟩ := hn
      · exact ihcost n hn r'
      · obtain hn | rfl := Nat.lt_or_eq_of_le hn
        · exact ihcost n hn r'
        · exact ihrank r' hr

theorem runs {depth cost : Nat} {b : BlockId} {args : List Value}
    (hj : m.jump depth cost b args w e w') : ∃ n, p.Runs .machine depth n b args w e w' := by
  obtain ⟨calls, n, hj'⟩ := (h.adequateAt cost _).jump rfl hj
  exact ⟨n, calls, hj'⟩

end Realises

end MonadicIR
