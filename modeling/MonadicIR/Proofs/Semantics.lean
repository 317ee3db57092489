import MonadicIR.Machine.Run
import MonadicIR.Proofs.Basic

namespace MonadicIR

/-- The part of the machine that effects act on. -/
structure World where
  memory : Std.TreeMap Word Word := ∅
  clock : Word := 0
  output : Array Observed := #[]

/-- How a run ends that is neither cut off nor fails. -/
inductive Ending (α : Type) where
  | returned (a : α)
  | halted
deriving DecidableEq, Repr

abbrev Result := Ending (List Value)

namespace Atom

/-- The value of an atom, given the values of top-levels. -/
def Has (tops : TopId → List Value → Prop) (env : Env) : Atom → Value → Prop
  | temp t, v => env.lookup t = some v
  | word w, v => v = .word w
  | flag b, v => v = .flag b
  | top r, v => ∃ vs, tops r.top vs ∧ vs[r.index]? = some v
  | external name, v => v = .external name

abbrev HasAll (tops : TopId → List Value → Prop) (env : Env) (as : List Atom) (vs : List Value) :
    Prop :=
  List.Forall₂ (Has tops env) as vs

end Atom

/-- The value that an allocation gives in the machine. -/
abbrev Allocates (k : ClosureId) (fields : List Value) (v : Value) : Prop := v = .closure k fields

/-- The effect and the results of a primitive that completes. -/
def Prim.effect (p : Prim) (args : List Value) (w : World) : Option (Result × World) :=
  match p, args with
  | .load, [.word address] => some (.returned [.word (w.memory.getD address 0)], w)
  | .store, [.word address, .word word] =>
    some (.returned [], { w with memory := w.memory.insert address word, clock := w.clock + 1 })
  | .print, [value] =>
    some (.returned [], { w with output := w.output.push value.observe, clock := w.clock + 1 })
  | .ticks, [] => some (.returned [.word w.clock], w)
  | .halt, [] => some (.halted, w)
  | p, args =>
    ((args.mapM Value.scalar?).bind p.compute?).map fun v => (.returned [.ofScalar v], w)

/-- What references to definitions stand for. Costs only have to go down along uses; the rank of a
block may go down instead where the cost stays. -/
structure Meaning where
  top : TopId → List Value → Prop
  /-- The value that an allocation of a closure gives. -/
  alloc : ClosureId → List Value → Value → Prop
  /-- The runs of a block at a depth. -/
  jump : (depth cost : Nat) → BlockId → List Value → World → Result → World → Prop
  /-- The runs of a value that is entered. With no room it may not jump. -/
  enter : (room cost : Nat) → Value → List Value → World → Result → World → Prop
  rank : BlockId → Nat := fun _ => 0

/-- What evaluating a tail makes use of. -/
inductive Use where
  | nothing
  | block (cost rank : Nat)
  | closure (cost : Nat)
deriving DecidableEq, Repr

namespace Use

def cost : Use → Nat
  | nothing => 0
  | block n _ | closure n => n

@[simp] theorem cost_nothing : nothing.cost = 0 := rfl
@[simp] theorem cost_block (n rank : Nat) : (block n rank).cost = n := rfl
@[simp] theorem cost_closure (n : Nat) : (closure n).cost = n := rfl

/-- Is it little enough for a tail at the end of code? -/
def EndsWithin (cost rank : Nat) : Use → Prop
  | nothing => 0 < cost
  | block n r => n < cost ∨ n ≤ cost ∧ r < rank
  | closure n => n < cost

/-- The rank that is left to the code after a tail. -/
def rankAfter (rank : Nat) : Use → Nat
  | nothing => rank
  | _ => 0

end Use

/-- The rules that runs are held to. -/
structure Rules where
  /-- What a statement costs that other statements follow. -/
  price : Nat
  /-- Does a binding need room for a call, even if its tail makes none? -/
  roomy : Prop
  /-- The constructors that a case may meet, given those of its arms. -/
  fits : List Ctor → Ctor → Prop

/-- Every statement takes a step, and nothing else is asked for. -/
def Rules.machine : Rules where
  price := 1
  roomy := False
  fits _ _ := True

namespace Tail

/-- The runs of a tail that uses neither blocks nor closures. -/
def Simple (tops : TopId → List Value → Prop) (alloc : ClosureId → List Value → Value → Prop)
    (env : Env) (t : Tail) (w : World) (e : Result) (w' : World) : Prop :=
  match t with
  | ret args => ∃ vs, Atom.HasAll tops env args vs ∧ e = .returned vs ∧ w' = w
  | data ctor args =>
    ∃ vs, Atom.HasAll tops env args vs ∧ e = .returned [.data ctor vs] ∧ w' = w
  | closure k args =>
    ∃ vs v, Atom.HasAll tops env args vs ∧ alloc k vs v ∧ e = .returned [v] ∧ w' = w
  | sel ctor field a =>
    ∃ c fields v, a.Has tops env (.data c fields) ∧ c.same ctor = true ∧
      fields[field]? = some v ∧ e = .returned [v] ∧ w' = w
  | prim p args => ∃ vs, Atom.HasAll tops env args vs ∧ p.effect vs w = some (e, w')
  | call _ | enter .. => False

end Tail

def Call.Runs (m : Meaning) (depth : Nat) (env : Env) (c : Call) (u : Use) (w : World) (e : Result)
    (w' : World) : Prop :=
  ∃ vs n, Atom.HasAll m.top env c.args vs ∧ u = .block n (m.rank c.target) ∧
    m.jump depth n c.target vs w e w'

namespace Tail

/-- The runs of a tail. With no room it may not jump. -/
def Runs (m : Meaning) (room : Nat) (env : Env) (t : Tail) (u : Use) (w : World) (e : Result)
    (w' : World) : Prop :=
  match t with
  | call c => ∃ depth, room = depth + 1 ∧ c.Runs m depth env u w e w'
  | enter f args =>
    ∃ v vs n, f.Has m.top env v ∧ Atom.HasAll m.top env args vs ∧ u = .closure n ∧
      m.enter room n v vs w e w'
  | t => u = .nothing ∧ t.Simple m.top m.alloc env w e w'

end Tail

namespace Code

def Runs (m : Meaning) (r : Rules) (depth : Nat) :
    Code → (cost rank : Nat) → Env → World → Result → World → Prop
  | done t, cost, rank, env, w, e, w' =>
    ∃ u, u.EndsWithin cost rank ∧ t.Runs m (depth + 1) env u w e w'
  | bind vars t rest, cost, rank, env, w, e, w' =>
    (r.roomy → 0 < depth) ∧ ∃ u,
      (u.EndsWithin cost 0 ∧ e = .halted ∧ t.Runs m depth env u w .halted w') ∨
      ∃ vs w1 left, r.price + u.cost + left ≤ cost ∧
        t.Runs m depth env u w (.returned vs) w1 ∧ vs.length = vars.length ∧
        rest.Runs m r depth left (u.rankAfter rank) (env.bind vars vs) w1 e w'
  | assert a ctor rest, cost, rank, env, w, e, w' =>
    ∃ c fields left, a.Has m.top env (.data c fields) ∧ c.same ctor = true ∧
      r.price + left ≤ cost ∧ rest.Runs m r depth left rank env w e w'
  | branch test yes no, cost, rank, env, w, e, w' =>
    ∃ b u, test.Has m.top env (.flag b) ∧ u.EndsWithin cost rank ∧
      (if b then yes else no).Runs m depth env u w e w'
  | switch a alts, cost, rank, env, w, e, w' =>
    ∃ c fields taken u, a.Has m.top env (.data c fields) ∧ alts.select c = some taken ∧
      r.fits (alts.arms.map Arm.ctor) c ∧ u.EndsWithin cost rank ∧ taken.Runs m depth env u w e w'

end Code

namespace Program

/-- The values of a top-level that refers to others through at most so many steps. -/
def topWithin (p : Program) : Nat → TopId → List Value → Prop
  | 0, _, _ => False
  | height + 1, t, vs =>
    ∃ top, p.tops[t.index]? = some top ∧ vs.length = top.lhs.length ∧
      ∀ w, top.tail.Simple (p.topWithin height) Allocates [] w
        (.returned vs) w

def HasTop (p : Program) (t : TopId) (vs : List Value) : Prop := ∃ height, p.topWithin height t vs

/-- The runs of a program in which calls follow each other at most so many times. -/
def meaning (p : Program) (r : Rules) : Nat → Meaning
  | 0 =>
    { top := p.HasTop
      alloc := Allocates
      jump := fun _ _ _ _ _ _ _ => False
      enter := fun _ _ _ _ _ _ _ => False }
  | calls + 1 =>
    { top := p.HasTop
      alloc := Allocates
      jump := fun depth cost b args w e w' =>
        ∃ block, p.blocks[b.index]? = some block ∧ block.params.length = args.length ∧
          block.code.Runs (p.meaning r calls) r depth cost 0 (Env.bind [] block.params args) w e w'
      enter := fun room cost v args w e w' =>
        ∃ k stored closure u, v = .closure k stored ∧ p.closures[k.index]? = some closure ∧
          (closure.stored ++ closure.params).length = (stored ++ args).length ∧
          u.EndsWithin cost 0 ∧
          closure.tail.Runs (p.meaning r calls) room
            (Env.bind [] (closure.stored ++ closure.params) (stored ++ args)) u w e w' }

def Runs (p : Program) (r : Rules) (depth cost : Nat) (b : BlockId) (args : List Value) (w : World)
    (e : Result) (w' : World) : Prop :=
  ∃ calls, (p.meaning r calls).jump depth cost b args w e w'

end Program

variable {tops tops' : TopId → List Value → Prop}

theorem Atom.Has.mono (h : ∀ t vs, tops t vs → tops' t vs) {env : Env} {a : Atom} {v : Value}
    (ha : a.Has tops env v) : a.Has tops' env v := by
  cases a with
  | top r =>
    obtain ⟨vs, ht, hv⟩ := ha
    exact ⟨vs, h _ _ ht, hv⟩
  | temp | word | flag | external => exact ha

theorem Tail.Simple.mono {alloc alloc' : ClosureId → List Value → Value → Prop}
    (h : ∀ t vs, tops t vs → tops' t vs) (h' : ∀ k vs v, alloc k vs v → alloc' k vs v) {env : Env}
    {t : Tail} {w w' : World} {e : Result} (ht : t.Simple tops alloc env w e w') :
    t.Simple tops' alloc' env w e w' := by
  have hall {args vs} (hv : Atom.HasAll tops env args vs) : Atom.HasAll tops' env args vs :=
    hv.imp fun _ _ => Atom.Has.mono h
  cases t with
  | ret | data | prim =>
    obtain ⟨vs, hv, rest⟩ := ht
    exact ⟨vs, hall hv, rest⟩
  | closure k args =>
    obtain ⟨vs, v, hv, ha, rest⟩ := ht
    exact ⟨vs, v, hall hv, h' _ _ _ ha, rest⟩
  | sel ctor field a =>
    obtain ⟨c, fields, v, ha, rest⟩ := ht
    exact ⟨c, fields, v, ha.mono h, rest⟩
  | call | enter => exact ht

namespace Use

theorem EndsWithin.mono {u : Use} {cost cost' rank rank' : Nat} (h : u.EndsWithin cost rank)
    (hc : cost ≤ cost') (hr : rank ≤ rank') : u.EndsWithin cost' rank' := by
  cases u with
  | nothing | closure => exact lt_of_lt_of_le h hc
  | block =>
    simp only [EndsWithin] at h ⊢
    omega

theorem EndsWithin.cost_le {u : Use} {cost rank : Nat} (h : u.EndsWithin cost rank) :
    u.cost ≤ cost := by
  cases u with
  | nothing => exact Nat.zero_le _
  | closure => exact le_of_lt h
  | block =>
    simp only [EndsWithin] at h
    simp only [Use.cost]
    omega

theorem endsWithin_zero_iff {u : Use} {cost : Nat} : u.EndsWithin cost 0 ↔ u.cost < cost := by
  cases u <;> simp [EndsWithin, Use.cost]

theorem endsWithin_succ (u : Use) : u.EndsWithin (u.cost + 1) 0 :=
  endsWithin_zero_iff.mpr (Nat.lt_succ_self _)

theorem EndsWithin.pos {u : Use} {cost : Nat} (h : u.EndsWithin cost 0) : 0 < cost :=
  Nat.zero_lt_of_lt (endsWithin_zero_iff.mp h)

@[simp] theorem rankAfter_zero (u : Use) : u.rankAfter 0 = 0 := by
  cases u <;> rfl

theorem rankAfter_mono (u : Use) {rank rank' : Nat} (h : rank ≤ rank') :
    u.rankAfter rank ≤ u.rankAfter rank' := by
  cases u <;> simp [rankAfter, h]

end Use

/-- All runs of the first meaning are runs of the second. -/
structure Meaning.Le (m m' : Meaning) : Prop where
  top : ∀ {t vs}, m.top t vs → m'.top t vs
  alloc : ∀ {k vs v}, m.alloc k vs v → m'.alloc k vs v
  jump : ∀ {d n b vs w e w'}, m.jump d n b vs w e w' → m'.jump d n b vs w e w'
  enter : ∀ {d n v vs w e w'}, m.enter d n v vs w e w' → m'.enter d n v vs w e w'
  rank : ∀ {d n b vs w e w'}, m.jump d n b vs w e w' → m'.rank b = m.rank b

theorem Meaning.Le.refl (m : Meaning) : m.Le m := ⟨id, id, id, id, fun _ => rfl⟩

/-- The second rules ask for no more than the first. -/
structure Rules.Le (r r' : Rules) : Prop where
  price : r'.price ≤ r.price
  roomy : r'.roomy → r.roomy
  fits : ∀ {ctors c}, r.fits ctors c → r'.fits ctors c

theorem Rules.Le.refl (r : Rules) : r.Le r := ⟨le_rfl, id, id⟩

section Mono

variable {m m' : Meaning} {r r' : Rules} {env : Env} {w w' : World} {e : Result} {u : Use}
  {cost cost' rank rank' : Nat} {depth : Nat} {code : Code}

theorem Atom.HasAll.mono {tops tops' : TopId → List Value → Prop}
    (h : ∀ t vs, tops t vs → tops' t vs) {args : List Atom} {vs : List Value}
    (hv : Atom.HasAll tops env args vs) : Atom.HasAll tops' env args vs :=
  hv.imp fun _ _ => Atom.Has.mono h

theorem Call.Runs.mono (h : m.Le m') {c : Call} (hc : c.Runs m depth env u w e w') :
    c.Runs m' depth env u w e w' := by
  obtain ⟨vs, n, hv, rfl, hj⟩ := hc
  exact ⟨vs, n, hv.mono fun _ _ => h.top, by rw [h.rank hj], h.jump hj⟩

theorem Tail.Runs.mono (h : m.Le m') {room : Nat} {t : Tail} (ht : t.Runs m room env u w e w') :
    t.Runs m' room env u w e w' := by
  cases t with
  | call c =>
    obtain ⟨depth, rfl, hc⟩ := ht
    exact ⟨depth, rfl, hc.mono h⟩
  | enter f args =>
    obtain ⟨v, vs, n, hf, hv, rfl, he⟩ := ht
    exact ⟨v, vs, n, hf.mono fun _ _ => h.top, hv.mono fun _ _ => h.top, rfl, h.enter he⟩
  | ret | data | closure | sel | prim =>
    exact ⟨ht.1, ht.2.mono (fun _ _ => h.top) fun _ _ _ => h.alloc⟩

/-- May more be spent, or as much at a rank that is no lower? -/
def Use.Wider (cost rank cost' rank' : Nat) : Prop := cost < cost' ∨ cost ≤ cost' ∧ rank ≤ rank'

theorem Use.EndsWithin.widen (h : u.EndsWithin cost rank)
    (hwider : Use.Wider cost rank cost' rank') : u.EndsWithin cost' rank' := by
  obtain hcost | ⟨hcost, hrank⟩ := hwider
  · exact (Use.endsWithin_zero_iff.mpr (lt_of_le_of_lt h.cost_le hcost)).mono le_rfl
      (Nat.zero_le _)
  · exact h.mono hcost hrank

theorem Use.Wider.after (h : Use.Wider cost rank cost' rank') (u : Use) (left : Nat) :
    Use.Wider left (u.rankAfter rank) (left + (cost' - cost)) (u.rankAfter rank') :=
  h.imp (fun h => by omega) fun h => ⟨Nat.le_add_right .., u.rankAfter_mono h.2⟩

/-- Runs of code in another meaning, if its tails and calls run there with some more room. -/
theorem Code.Runs.lift (more : Nat) (htop : ∀ t vs, m.top t vs → m'.top t vs)
    (htail : ∀ {t room env u w e w'}, Tail.Runs m room env t u w e w' →
      Tail.Runs m' (room + more) env t u w e w')
    (hcall : ∀ {c env u w e w'}, Call.Runs m depth env c u w e w' →
      Call.Runs m' (depth + more) env c u w e w')
    (hr : r.Le r') (hwider : Use.Wider cost rank cost' rank')
    (hc : code.Runs m r depth cost rank env w e w') :
    code.Runs m' r' (depth + more) cost' rank' env w e w' := by
  have hp := hr.price
  have hcost : cost ≤ cost' := hwider.elim le_of_lt And.left
  induction code generalizing cost cost' rank rank' env w with
  | done t =>
    obtain ⟨u, hu, ht⟩ := hc
    exact ⟨u, hu.widen hwider, by simpa only [Nat.add_right_comm] using htail ht⟩
  | bind vars t rest ih =>
    obtain ⟨hd, u, hrun⟩ := hc
    refine ⟨fun hroomy => Nat.add_pos_left (hd (hr.roomy hroomy)) more, u, hrun.imp ?_ ?_⟩
    · exact fun ⟨hu, he, ht⟩ => ⟨hu.mono hcost le_rfl, he, htail ht⟩
    · exact fun ⟨vs, w1, left, hl, ht, hlen, hrest⟩ =>
        ⟨vs, w1, left + (cost' - cost), by omega, htail ht, hlen,
          ih (hwider.after u left) hrest (Nat.le_add_right ..)⟩
  | assert a ctor rest ih =>
    obtain ⟨c, fields, left, ha, hc, hl, hrest⟩ := hc
    exact ⟨c, fields, left + (cost' - cost), ha.mono htop, hc, by omega,
      ih (hwider.after .nothing left) hrest (Nat.le_add_right ..)⟩
  | branch test yes no =>
    obtain ⟨b, u, hb, hu, hrun⟩ := hc
    exact ⟨b, u, hb.mono htop, hu.widen hwider, hcall hrun⟩
  | switch a alts =>
    obtain ⟨c, fields, taken, u, ha, hs, hf, hu, hrun⟩ := hc
    exact ⟨c, fields, taken, u, ha.mono htop, hs, hr.fits hf, hu.widen hwider, hcall hrun⟩

theorem Code.Runs.mono (h : m.Le m') (hr : r.Le r') (hcost : cost ≤ cost') (hrank : rank ≤ rank')
    (hc : code.Runs m r depth cost rank env w e w') :
    code.Runs m' r' depth cost' rank' env w e w' :=
  hc.lift 0 (fun _ _ => h.top) (fun ht => ht.mono h) (fun hc => hc.mono h) hr (.inr ⟨hcost, hrank⟩)

theorem Code.Runs.more {cost cost' rank : Nat} (hcost : cost ≤ cost')
    (hc : code.Runs m r depth cost rank env w e w') : code.Runs m r depth cost' rank env w e w' :=
  hc.mono (.refl m) (.refl r) hcost le_rfl

theorem Code.Runs.spare {cost cost' rank : Nat} (hcost : cost < cost') (rank' : Nat)
    (hc : code.Runs m r depth cost rank env w e w') :
    code.Runs m r depth cost' rank' env w e w' :=
  hc.lift 0 (fun _ _ => id) id id (.refl r) (.inl hcost)

/-- What runs at some depth also runs with more room. -/
structure Meaning.Deepens (m : Meaning) : Prop where
  jump : ∀ {d n b vs w e w'}, m.jump d n b vs w e w' → m.jump (d + 1) n b vs w e w'
  enter : ∀ {d n v vs w e w'}, m.enter d n v vs w e w' → m.enter (d + 1) n v vs w e w'

theorem Call.Runs.deepen (h : m.Deepens) {c : Call} (hc : c.Runs m depth env u w e w') :
    c.Runs m (depth + 1) env u w e w' := by
  obtain ⟨vs, n, hv, hu, hj⟩ := hc
  exact ⟨vs, n, hv, hu, h.jump hj⟩

theorem Tail.Runs.deepen (h : m.Deepens) {room : Nat} {t : Tail}
    (ht : t.Runs m room env u w e w') : t.Runs m (room + 1) env u w e w' := by
  cases t with
  | call c =>
    obtain ⟨depth, rfl, hc⟩ := ht
    exact ⟨depth + 1, rfl, hc.deepen h⟩
  | enter f args =>
    obtain ⟨v, vs, n, hf, hv, hu, he⟩ := ht
    exact ⟨v, vs, n, hf, hv, hu, h.enter he⟩
  | ret | data | closure | sel | prim => exact ht

theorem Code.Runs.deepen (h : m.Deepens) {depth cost rank : Nat}
    (hc : code.Runs m r depth cost rank env w e w') :
    code.Runs m r (depth + 1) cost rank env w e w' :=
  hc.lift 1 (fun _ _ => id) (fun ht => ht.deepen h) (fun hc => hc.deepen h) (.refl r)
    (.inr ⟨le_rfl, le_rfl⟩)

theorem Code.Runs.cost_pos {cost : Nat} (hc : code.Runs m r depth cost 0 env w e w') :
    0 < cost := by
  induction code generalizing cost env w with
  | done t =>
    obtain ⟨u, hu, -⟩ := hc
    exact hu.pos
  | bind vars t rest ih =>
    obtain ⟨-, u, ⟨hu, -, -⟩ | ⟨vs, w1, left, hl, -, -, hrest⟩⟩ := hc
    · exact hu.pos
    · rw [Use.rankAfter_zero] at hrest
      have := ih hrest
      omega
  | assert a ctor rest ih =>
    obtain ⟨-, -, left, -, -, hl, hrest⟩ := hc
    have := ih hrest
    omega
  | branch test yes no =>
    obtain ⟨-, u, -, hu, -⟩ := hc
    exact hu.pos
  | switch a alts =>
    obtain ⟨-, -, -, u, -, -, -, hu, -⟩ := hc
    exact hu.pos

end Mono

namespace Program

variable (p : Program)

@[simp] theorem meaning_top (r : Rules) (calls : Nat) : (p.meaning r calls).top = p.HasTop := by
  cases calls <;> rfl

@[simp] theorem meaning_alloc (r : Rules) (calls : Nat) :
    (p.meaning r calls).alloc = Allocates := by
  cases calls <;> rfl

@[simp] theorem meaning_rank (r : Rules) (calls : Nat) (b : BlockId) :
    (p.meaning r calls).rank b = 0 := by
  cases calls <;> rfl

theorem topWithin_mono {height height' : Nat} (h : height ≤ height') {t : TopId} {vs : List Value}
    (ht : p.topWithin height t vs) : p.topWithin height' t vs := by
  induction height generalizing height' t vs with
  | zero => exact ht.elim
  | succ height ih =>
    obtain _ | height' := height'
    · cases h
    · obtain ⟨top, ht, hl, hs⟩ := ht
      exact ⟨top, ht, hl, fun w => (hs w).mono (fun _ _ => ih (Nat.le_of_succ_le_succ h))
        fun _ _ _ => id⟩

/-- Runs by strict rules are runs by others that ask for less, also with more calls, and in a
program that differs in nothing but top-levels. -/
theorem meaning_le {p q : Program} {r r' : Rules} (hblocks : q.blocks = p.blocks)
    (hclosures : q.closures = p.closures) (htops : ∀ {t vs}, p.HasTop t vs → q.HasTop t vs)
    (hr : r.Le r') {calls calls' : Nat} (hcalls : calls ≤ calls') :
    (p.meaning r calls).Le (q.meaning r' calls') := by
  induction calls generalizing calls' with
  | zero =>
    refine ⟨fun ht => ?_, by simp, False.elim, False.elim, fun _ => by simp⟩
    simpa using htops (by simpa using ht)
  | succ calls ih =>
    obtain _ | calls' := calls'
    · cases hcalls
    · have ih := ih (Nat.le_of_succ_le_succ hcalls)
      refine ⟨htops, id, ?_, ?_, fun _ => rfl⟩
      · rintro d n b vs w e w' ⟨block, hb, hl, hrun⟩
        exact ⟨block, hblocks ▸ hb, hl, hrun.mono ih hr le_rfl le_rfl⟩
      · rintro d n v vs w e w' ⟨k, stored, closure, u, rfl, hk, hl, hu, hrun⟩
        exact ⟨k, stored, closure, u, rfl, hclosures ▸ hk, hl, hu, hrun.mono ih⟩

theorem meaning_mono (r : Rules) {calls calls' : Nat} (h : calls ≤ calls') :
    (p.meaning r calls).Le (p.meaning r calls') := meaning_le rfl rfl id (.refl r) h

theorem meaning_deepens (r : Rules) (calls : Nat) : (p.meaning r calls).Deepens := by
  induction calls with
  | zero => exact ⟨False.elim, False.elim⟩
  | succ calls ih =>
    refine ⟨?_, ?_⟩
    · rintro d n b vs w e w' ⟨block, hb, hl, hrun⟩
      exact ⟨block, hb, hl, hrun.deepen ih⟩
    · rintro d n v vs w e w' ⟨k, stored, closure, u, rfl, hk, hl, hu, hrun⟩
      exact ⟨k, stored, closure, u, rfl, hk, hl, hu, hrun.deepen ih⟩

namespace Runs

variable {p} {r r' : Rules} {depth cost cost' : Nat} {b : BlockId} {args : List Value}
  {w w' : World}
  {e : Result}

theorem of_rules (h : r.Le r') (hrun : p.Runs r depth cost b args w e w') :
    p.Runs r' depth cost b args w e w' := by
  obtain ⟨calls, hj⟩ := hrun
  exact ⟨calls, (meaning_le rfl rfl id h (Nat.le_refl calls)).jump hj⟩

theorem more (hcost : cost ≤ cost') (hrun : p.Runs r depth cost b args w e w') :
    p.Runs r depth cost' b args w e w' := by
  obtain ⟨_ | calls, hj⟩ := hrun
  · exact hj.elim
  · obtain ⟨block, hb, hl, hrun⟩ := hj
    exact ⟨calls + 1, block, hb, hl, hrun.more hcost⟩

end Runs

end Program

/-- Does the tail use neither blocks nor closures? -/
def Tail.isSimple : Tail → Bool
  | call _ | enter .. => false
  | _ => true

theorem Tail.isSimple_of_isPure {t : Tail} (h : t.isPure) : t.isSimple := by
  cases t <;> simp_all [isPure, purity, Purity.isPure, isSimple]

section Effect

variable (w : World)

@[simp] theorem Prim.effect_load (a : Word) :
    load.effect [.word a] w = some (.returned [.word (w.memory.getD a 0)], w) := rfl

@[simp] theorem Prim.effect_store (a x : Word) : store.effect [.word a, .word x] w =
    some (.returned [], { w with memory := w.memory.insert a x, clock := w.clock + 1 }) := rfl

@[simp] theorem Prim.effect_print (v : Value) : print.effect [v] w =
    some (.returned [], { w with output := w.output.push v.observe, clock := w.clock + 1 }) := rfl

@[simp] theorem Prim.effect_ticks :
    ticks.effect [] w = some (.returned [.word w.clock], w) := rfl

@[simp] theorem Prim.effect_halt : halt.effect [] w = some (.halted, w) := rfl

end Effect

def Run.compute (q : Prim) (args : List Value) : Run (List Value) :=
  match (args.mapM Value.scalar?).bind q.compute? with
  | some value => return [.ofScalar value]
  | none => fail (.badPrim q (Value.observeAll args))

def Prim.computed (q : Prim) (args : List Value) (w : World) : Option (Result × World) :=
  ((args.mapM Value.scalar?).bind q.compute?).map fun v => (.returned [.ofScalar v], w)

theorem Prim.computed_eq_some_iff {q : Prim} {args : List Value} {w w' : World} {e : Result} :
    q.computed args w = some (e, w') ↔ ∃ v, (args.mapM Value.scalar?).bind q.compute? = some v ∧
      e = .returned [.ofScalar v] ∧ w' = w := by
  simp only [computed, Option.map_eq_some_iff, Prod.mk.injEq, @eq_comm _ e, @eq_comm _ w']

/-- The primitives that have an effect of their own, with the operands that they take, and all
others. -/
inductive Prim.Request : Prim → List Value → Prop
  | load (a : Word) : Request .load [.word a]
  | store (a x : Word) : Request .store [.word a, .word x]
  | print (v : Value) : Request .print [v]
  | ticks : Request .ticks []
  | halt : Request .halt []
  | loop : Request .loop []
  | value {q : Prim} {args : List Value} (hrun : Run.prim q args = Run.compute q args)
      (heffect : ∀ w, q.effect args w = q.computed args w) : Request q args

theorem Prim.request (q : Prim) (args : List Value) : q.Request args := by
  cases q with
  | load =>
    obtain _ | ⟨a | _ | _ | _ | _, _ | ⟨_, _⟩⟩ := args
    case cons.word.nil => exact .load a
    all_goals exact .value rfl fun _ => rfl
  | store =>
    obtain _ | ⟨a | _ | _ | _ | _, _ | ⟨x | _ | _ | _ | _, _ | ⟨_, _⟩⟩⟩ := args
    case cons.word.cons.word.nil => exact .store a x
    all_goals exact .value rfl fun _ => rfl
  | print =>
    obtain _ | ⟨v, _ | ⟨_, _⟩⟩ := args
    case cons.nil => exact .print v
    all_goals exact .value rfl fun _ => rfl
  | ticks =>
    cases args with
    | nil => exact .ticks
    | cons => exact .value rfl fun _ => rfl
  | halt =>
    cases args with
    | nil => exact .halt
    | cons => exact .value rfl fun _ => rfl
  | loop =>
    cases args with
    | nil => exact .loop
    | cons => exact .value rfl fun _ => rfl
  | _ => exact .value rfl fun _ => rfl

theorem Prim.effect_of_isPure {q : Prim} (hq : q.purity.isPure) (args : List Value) (w : World) :
    q.effect args w = q.computed args w := by
  cases q with
  | load | store | ticks | print | halt | loop => cases hq
  | _ => rfl

theorem Prim.effect_of_compute {q : Prim} {args : List Value} {v : Scalar}
    (h : (args.mapM Value.scalar?).bind q.compute? = some v) (w : World) :
    q.effect args w = some (.returned [.ofScalar v], w) := by
  have hq : q.purity.isPure := by
    obtain ⟨xs, -, hv⟩ := Option.bind_eq_some_iff.mp h
    cases q with
    | load | store | ticks | print | halt | loop => cases hv
    | _ => rfl
  exact (effect_of_isPure hq args w).trans (computed_eq_some_iff.mpr ⟨v, h, rfl, rfl⟩)

theorem Tail.Simple.of_isPure {tops : TopId → List Value → Prop}
    {alloc : ClosureId → List Value → Value → Prop} {env : Env} {t : Tail} (ht : t.isPure)
    {w w' : World} {e : Result} (h : t.Simple tops alloc env w e w') :
    w' = w ∧ ∃ vs, e = .returned vs ∧ ∀ w, t.Simple tops alloc env w (.returned vs) w := by
  cases t with
  | ret | data =>
    obtain ⟨vs, hv, rfl, rfl⟩ := h
    exact ⟨rfl, _, rfl, fun _ => ⟨vs, hv, rfl, rfl⟩⟩
  | closure =>
    obtain ⟨vs, v, hv, ha, rfl, rfl⟩ := h
    exact ⟨rfl, _, rfl, fun _ => ⟨vs, v, hv, ha, rfl, rfl⟩⟩
  | sel =>
    obtain ⟨c, fields, v, hv, hc, hf, rfl, rfl⟩ := h
    exact ⟨rfl, _, rfl, fun _ => ⟨c, fields, v, hv, hc, hf, rfl, rfl⟩⟩
  | prim q args =>
    obtain ⟨vs, hv, hw⟩ := h
    rw [Prim.effect_of_isPure ht, Prim.computed_eq_some_iff] at hw
    obtain ⟨x, hx, rfl, rfl⟩ := hw
    exact ⟨rfl, _, rfl, fun w => ⟨vs, hv, Prim.effect_of_compute hx w⟩⟩
  | call | enter => exact h.elim

namespace Program

variable {p : Program}

theorem exists_topWithin {env : Env} {a : Atom} {v : Value} (h : a.Has p.HasTop env v) :
    ∃ height, a.Has (p.topWithin height) env v := by
  cases a with
  | top r =>
    obtain ⟨vs, ⟨height, ht⟩, hv⟩ := h
    exact ⟨height, vs, ht, hv⟩
  | temp | word | flag | external => exact ⟨0, h⟩

theorem exists_topWithin_all {env : Env} {as : List Atom} {vs : List Value}
    (h : Atom.HasAll p.HasTop env as vs) :
    ∃ height, Atom.HasAll (p.topWithin height) env as vs := by
  induction h with
  | nil => exact ⟨0, .nil⟩
  | cons ha _ ih =>
    obtain ⟨m, hm⟩ := exists_topWithin ha
    obtain ⟨n, hn⟩ := ih
    exact ⟨max m n, .cons (hm.mono fun _ _ => p.topWithin_mono (Nat.le_max_left ..))
      (hn.mono fun _ _ => p.topWithin_mono (Nat.le_max_right ..))⟩

theorem exists_simple_topWithin {alloc : ClosureId → List Value → Value → Prop} {env : Env}
    {t : Tail} {w w' : World} {e : Result} (h : t.Simple p.HasTop alloc env w e w') :
    ∃ height, t.Simple (p.topWithin height) alloc env w e w' := by
  cases t with
  | ret | data | prim =>
    obtain ⟨vs, hv, rest⟩ := h
    obtain ⟨n, hn⟩ := exists_topWithin_all hv
    exact ⟨n, vs, hn, rest⟩
  | closure =>
    obtain ⟨vs, v, hv, rest⟩ := h
    obtain ⟨n, hn⟩ := exists_topWithin_all hv
    exact ⟨n, vs, v, hn, rest⟩
  | sel =>
    obtain ⟨c, fields, v, hv, rest⟩ := h
    obtain ⟨n, hn⟩ := exists_topWithin hv
    exact ⟨n, c, fields, v, hn, rest⟩
  | call | enter => exact h.elim

theorem HasTop.intro {t : TopId} {top : TopLevel} (ht : p.tops[t.index]? = some top)
    (hp : top.tail.isPure) {vs : List Value} (hl : vs.length = top.lhs.length) {w w' : World}
    (h : top.tail.Simple p.HasTop Allocates [] w (.returned vs) w') :
    p.HasTop t vs := by
  obtain ⟨height, hs⟩ := exists_simple_topWithin h
  obtain ⟨-, _, ⟨⟩, hall⟩ := hs.of_isPure hp
  exact ⟨height + 1, top, ht, hl, hall⟩

/-- A program whose top-levels are computed by pure tails. -/
def PureTops (p : Program) : Prop := ∀ top ∈ p.tops, top.tail.isPure

theorem PureTops.isPure (h : p.PureTops) {t : TopId} {top : TopLevel}
    (ht : p.tops[t.index]? = some top) : top.tail.isPure :=
  h top (Array.mem_of_getElem? ht)

end Program

section Unique

variable {tops : TopId → List Value → Prop} {env : Env}
  (htops : ∀ ⦃t vs vs'⦄, tops t vs → tops t vs' → vs = vs')

include htops

theorem Atom.Has.unique {a : Atom} {v v' : Value} (h : a.Has tops env v) (h' : a.Has tops env v') :
    v = v' := by
  cases a with
  | temp t => exact Option.mem_unique h h'
  | top r =>
    obtain ⟨vs, ht, hv⟩ := h
    obtain ⟨vs', ht', hv'⟩ := h'
    obtain rfl := htops ht ht'
    exact Option.mem_unique hv hv'
  | word | flag | external => exact Eq.trans h (Eq.symm h')

theorem Atom.HasAll.unique {as : List Atom} {vs vs' : List Value} (h : Atom.HasAll tops env as vs)
    (h' : Atom.HasAll tops env as vs') : vs = vs' := by
  induction h generalizing vs' with
  | nil =>
    cases h'
    rfl
  | cons ha _ ih =>
    obtain _ | ⟨hb, hbs⟩ := h'
    rw [ha.unique htops hb, ih hbs]

theorem Tail.Simple.unique {t : Tail} {w w1 w2 : World} {e1 e2 : Result}
    (h1 : t.Simple tops Allocates env w e1 w1)
    (h2 : t.Simple tops Allocates env w e2 w2) :
    e1 = e2 ∧ w1 = w2 := by
  cases t with
  | ret | data =>
    obtain ⟨vs, hv, rfl, rfl⟩ := h1
    obtain ⟨vs', hv', rfl, rfl⟩ := h2
    simp [hv.unique htops hv']
  | closure =>
    obtain ⟨vs, v, hv, rfl, rfl, rfl⟩ := h1
    obtain ⟨vs', v', hv', rfl, rfl, rfl⟩ := h2
    simp [hv.unique htops hv']
  | sel =>
    obtain ⟨c, fields, v, ha, -, hf, rfl, rfl⟩ := h1
    obtain ⟨c', fields', v', ha', -, hf', rfl, rfl⟩ := h2
    obtain ⟨-, rfl⟩ := Value.data.inj (ha.unique htops ha')
    simp [Option.mem_unique hf hf']
  | prim =>
    obtain ⟨vs, hv, hw⟩ := h1
    obtain ⟨vs', hv', hw'⟩ := h2
    obtain rfl := hv.unique htops hv'
    exact Prod.mk.inj (Option.mem_unique hw hw')
  | call | enter => exact h1.elim

end Unique

namespace Program

variable {p : Program}

theorem topWithin_unique {height : Nat} {t : TopId} {vs vs' : List Value}
    (h : p.topWithin height t vs) (h' : p.topWithin height t vs') : vs = vs' := by
  induction height generalizing t vs vs' with
  | zero => exact h.elim
  | succ height ih =>
    obtain ⟨top, ht, -, hs⟩ := h
    obtain ⟨top', ht', -, hs'⟩ := h'
    obtain rfl := Option.mem_unique ht ht'
    have hlower : ∀ ⦃t vs vs'⦄, p.topWithin height t vs → p.topWithin height t vs' → vs = vs' :=
      fun _ _ _ => ih
    exact Ending.returned.inj ((hs {}).unique hlower (hs' {})).1

theorem HasTop.unique {t : TopId} {vs vs' : List Value} (h : p.HasTop t vs)
    (h' : p.HasTop t vs') : vs = vs' := by
  obtain ⟨m, hm⟩ := h
  obtain ⟨n, hn⟩ := h'
  exact topWithin_unique (p.topWithin_mono (Nat.le_max_left m n) hm)
    (p.topWithin_mono (Nat.le_max_right m n) hn)

end Program

end MonadicIR
