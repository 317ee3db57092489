import MonadicIR.Proofs.Semantics

namespace MonadicIR

def Ending.map {α β : Type} (f : α → β) : Ending α → Ending β
  | .returned a => .returned (f a)
  | .halted => .halted

namespace Run

/-- A run that returns or halts, and the machine after it. -/
def Ends {α : Type} (x : Run α) (s : Machine) : Ending α → Machine → Prop
  | .returned a, s' => x s = .ok a s'
  | .halted, s' => x s = .error .halted s'

section Ends

variable {α β : Type} {x : Run α} {f : α → Run β} {s s' s1 : Machine} {e : Ending α}

@[simp] theorem ends_pure {a : α} :
    Ends (pure a) s e s' ↔ e = .returned a ∧ s' = s := by
  cases e <;> simp [Ends, pure, EStateM.pure, eq_comm]

@[simp] theorem ends_fail {r : RunError} : ¬ Ends (fail r : Run α) s e s' := by
  cases e <;> simp [Ends, fail, throw, throwThe, MonadExceptOf.throw, EStateM.throw]

@[simp] theorem ends_diverged : ¬ Ends (throw .diverged : Run α) s e s' := by
  cases e <;> simp [Ends, throw, throwThe, MonadExceptOf.throw, EStateM.throw]

@[simp] theorem ends_halted :
    Ends (throw .halted : Run α) s e s' ↔ e = .halted ∧ s' = s := by
  cases e <;> simp [Ends, throw, throwThe, MonadExceptOf.throw, EStateM.throw, eq_comm]

@[simp] theorem ends_modify {g : Machine → Machine} {e : Ending PUnit} :
    Ends (modify g) s e s' ↔ e = .returned ⟨⟩ ∧ s' = g s := by
  cases e <;> simp [Ends, modify, modifyGet, MonadStateOf.modifyGet, EStateM.modifyGet, eq_comm]

@[simp] theorem ends_get {e : Ending Machine} : Ends get s e s' ↔ e = .returned s ∧ s' = s := by
  cases e <;> simp [Ends, get, getThe, MonadStateOf.get, EStateM.get, eq_comm]

theorem ends_bind {e : Ending β} : Ends (x >>= f) s e s' ↔
    (∃ a s1, Ends x s (.returned a) s1 ∧ Ends (f a) s1 e s') ∨
      (e = .halted ∧ Ends x s .halted s') := by
  cases e <;> simp only [Ends, bind, EStateM.bind] <;> cases hx : x s <;> simp_all

theorem Ends.bind {a : α} {e : Ending β} (hx : Ends x s (.returned a) s1)
    (hf : Ends (f a) s1 e s') : Ends (x >>= f) s e s' :=
  ends_bind.mpr (.inl ⟨a, s1, hx, hf⟩)

theorem Ends.after {P : α → Machine → Prop} {e : Ending β} (h : Ends (x >>= f) s e s')
    (hx : ∀ {e s1}, Ends x s e s1 → ∃ a, e = .returned a ∧ P a s1) :
    ∃ a s1, P a s1 ∧ Ends (f a) s1 e s' := by
  obtain ⟨a, s1, hrun, hf⟩ | ⟨-, hrun⟩ := ends_bind.mp h
  · obtain ⟨_, ⟨⟩, ha⟩ := hx hrun
    exact ⟨a, s1, ha, hf⟩
  · obtain ⟨_, ⟨⟩, -⟩ := hx hrun

@[simp] theorem ends_map {g : α → β} {e : Ending β} :
    Ends (g <$> x) s e s' ↔ ∃ r, e = Ending.map g r ∧ Ends x s r s' := by
  rw [map_eq_pure_bind, ends_bind]
  constructor
  · rintro (⟨a, s1, hx, hp⟩ | ⟨rfl, hx⟩)
    · obtain ⟨rfl, rfl⟩ := ends_pure.mp hp
      exact ⟨.returned a, rfl, hx⟩
    · exact ⟨.halted, rfl, hx⟩
  · rintro ⟨a | _, rfl, hx⟩
    · exact .inl ⟨a, s', hx, ends_pure.mpr ⟨rfl, rfl⟩⟩
    · exact .inr ⟨rfl, hx⟩

theorem ends_ite {c : Prop} [Decidable c] {y : Run α} :
    Ends (if c then x else y) s e s' ↔ if c then Ends x s e s' else Ends y s e s' := by
  split <;> rfl

theorem ends_ofFault {r : Except Fault α} {e : Ending β} :
    Ends (ofFault r >>= f) s e s' ↔ ∃ a, r = .ok a ∧ Ends (f a) s e s' := by
  cases r <;> simp [ofFault, ends_bind]

theorem ends_tick {limit : Nat} {f : Unit → Run β} {e : Ending β} : Ends (tick limit >>= f) s e s' ↔
    s.steps < limit ∧ Ends (f ()) { s with steps := s.steps + 1 } e s' := by
  simp only [tick, ends_bind, ends_modify, ends_get]
  grind [ends_pure, ends_diverged]

theorem ends_enter {place : Place} {params : List Temp} {args : List Value} {f : Env → Run β}
    {e : Ending β} : Ends (enter place params args >>= f) s e s' ↔
      params.length = args.length ∧ Ends (f (Env.bind [] params args)) s e s' := by
  unfold enter
  split <;> simp [*, ends_bind]

end Ends

/-- The machine is left as it is, and there is a result or the run fails. -/
def Looks {α : Type} (x : Run α) : Prop :=
  ∀ s : Machine, (∃ a, x s = .ok a s) ∨ ∃ e, x s = .error (.failed e) s

section Looks

variable {α : Type}

theorem looks_pure {a : α} : Looks (pure a) := fun _ => .inl ⟨a, rfl⟩

theorem looks_fail {e : RunError} : Looks (fail e : Run α) := fun _ => .inr ⟨e, rfl⟩

theorem looks_get : Looks get := fun s => .inl ⟨s, rfl⟩

theorem looks_ofFault {r : Except Fault α} : Looks (ofFault r) := by
  cases r with
  | ok a => exact looks_pure
  | error f => exact looks_fail

theorem looks_enter {place : Place} {params : List Temp} {args : List Value} :
    Looks (enter place params args) := by
  unfold enter
  split
  · exact looks_pure
  · exact looks_fail

theorem looks_select {tail : Tail} {ctor : Ctor} {field : Nat} {v : Value} :
    Looks (select tail ctor field v) := by
  unfold select
  split
  · split
    · split
      · exact looks_pure
      · exact looks_fail
    · exact looks_fail
  · exact looks_fail

theorem looks_choose {test : Value} {yes no : Call} : Looks (choose test yes no) := by
  unfold choose
  split
  · exact looks_pure
  · exact looks_fail

theorem looks_chooseArm {alts : Alts} {v : Value} : Looks (chooseArm alts v) := by
  unfold chooseArm
  split
  · split
    · exact looks_pure
    · exact looks_fail
  · exact looks_fail

theorem looks_assertCtor {ctor : Ctor} {v : Value} : Looks (assertCtor ctor v) := by
  unfold assertCtor
  split
  · split
    · exact looks_pure
    · exact looks_fail
  · exact looks_fail

end Looks

end Run

namespace Machine

def world (s : Machine) : World := ⟨s.memory, s.clock, s.output⟩

def inWorld (s : Machine) (w : World) : Machine :=
  { s with memory := w.memory, clock := w.clock, output := w.output }

@[simp] theorem world_memory (s : Machine) : s.world.memory = s.memory := rfl
@[simp] theorem world_clock (s : Machine) : s.world.clock = s.clock := rfl
@[simp] theorem world_output (s : Machine) : s.world.output = s.output := rfl
@[simp] theorem world_inWorld (s : Machine) (w : World) : (s.inWorld w).world = w := rfl
@[simp] theorem inWorld_world (s : Machine) : s.inWorld s.world = s := rfl

def Knows (p : Program) (s : Machine) : Prop := ∀ e ∈ s.tops, p.HasTop e.1 e.2

/-- Nothing changed but the world and what is known of top-levels. -/
structure Follows (p : Program) (s s' : Machine) : Prop where
  steps : s'.steps = s.steps
  pending : s'.pending = s.pending
  knows : s'.Knows p

variable {p : Program}

theorem Follows.refl {s : Machine} (h : s.Knows p) : Follows p s s := ⟨rfl, rfl, h⟩

theorem Follows.trans {s1 s2 s3 : Machine} (h : Follows p s1 s2) (h' : Follows p s2 s3) :
    Follows p s1 s3 :=
  ⟨h'.steps.trans h.steps, h'.pending.trans h.pending, h'.knows⟩

theorem Follows.inWorld {s s' : Machine} (h : Follows p s s') (w : World) :
    Follows p s (s'.inWorld w) :=
  ⟨h.steps, h.pending, h.knows⟩

/-- Nothing changed but what is known of top-levels. -/
structure Quiet (p : Program) (s s' : Machine) : Prop extends Follows p s s' where
  world : s'.world = s.world

theorem Quiet.refl {s : Machine} (h : s.Knows p) : Quiet p s s := ⟨.refl h, rfl⟩

theorem Quiet.trans {s1 s2 s3 : Machine} (h : Quiet p s1 s2) (h' : Quiet p s2 s3) :
    Quiet p s1 s3 :=
  ⟨h.toFollows.trans h'.toFollows, h'.world.trans h.world⟩

end Machine

open Machine (Follows Quiet)

namespace Run

theorem ends_prim {q : Prim} {args : List Value} {s s' : Machine} {e : Result} :
    Ends (prim q args) s e s' ↔
      ∃ w, q.effect args s.world = some (e, w) ∧ s' = s.inWorld w := by
  cases q.request args with
  | load a =>
    change Ends (do return [.word (← load a)]) s e s' ↔ _
    simp only [load, ends_bind, ends_get, ends_pure]
    simp [and_comm, @eq_comm _ e]
  | store a x =>
    change Ends (do store a x; return []) s e s' ↔ _
    simp only [store, ends_bind, ends_modify, ends_pure]
    simp [Machine.inWorld, @eq_comm _ e]
  | print v =>
    change Ends (do print v; return []) s e s' ↔ _
    simp only [print, ends_bind, ends_modify, ends_pure]
    simp [Machine.inWorld, @eq_comm _ e]
  | ticks =>
    change Ends (do return [.word (← get).clock]) s e s' ↔ _
    simp only [ends_bind, ends_get, ends_pure]
    simp [@eq_comm _ e]
  | halt =>
    change Ends (throw .halted) s e s' ↔ _
    simp [@eq_comm _ e]
  | loop =>
    change Ends (throw .diverged) s e s' ↔ ∃ w, none = some (e, w) ∧ _
    simp
  | value hrun heffect =>
    rw [hrun, heffect, compute, Prim.computed]
    generalize (args.mapM Value.scalar?).bind q.compute? = computed
    cases computed <;> simp [@eq_comm _ e]

def Sound (p : Program) (tops : TopId → Run (List Value)) : Prop :=
  ∀ ⦃t s e s'⦄, s.Knows p → Ends (tops t) s e s' →
    ∃ vs, e = .returned vs ∧ p.HasTop t vs ∧ Quiet p s s'

/-- These values are computed, where the top-levels on the way to them allow it. -/
def Complete (p : Program) (allowed : List TopId → Prop) (has : TopId → List Value → Prop)
    (tops : TopId → Run (List Value)) : Prop :=
  ∀ ⦃t s vs⦄, s.Knows p → allowed s.pending → has t vs →
    ∃ s', Ends (tops t) s (.returned vs) s' ∧ Quiet p s s'

variable {p : Program} {tops : TopId → Run (List Value)} {allowed : List TopId → Prop}
  {has : TopId → List Value → Prop} {env : Env} {s s' : Machine}

theorem atom_sound (h : Sound p tops) (hs : s.Knows p) {a : Atom} {e : Ending Value}
    (ha : Ends (atom tops env a) s e s') :
    ∃ v, e = .returned v ∧ a.Has p.HasTop env v ∧ Quiet p s s' := by
  cases a with
  | temp t =>
    simp only [atom] at ha
    split at ha
    · obtain ⟨rfl, rfl⟩ := ends_pure.mp ha
      exact ⟨_, rfl, ‹_›, .refl hs⟩
    · exact (ends_fail ha).elim
  | top r =>
    obtain ⟨vs, s1, ⟨htop, hq⟩, ha⟩ := ha.after (h hs)
    split at ha
    · obtain ⟨rfl, rfl⟩ := ends_pure.mp ha
      exact ⟨_, rfl, ⟨_, htop, ‹_›⟩, hq⟩
    · exact (ends_fail ha).elim
  | word | flag | external =>
    obtain ⟨rfl, rfl⟩ := ends_pure.mp ha
    exact ⟨_, rfl, rfl, .refl hs⟩

theorem atoms_sound (h : Sound p tops) (hs : s.Knows p) {as : List Atom}
    {e : Ending (List Value)} (ha : Ends (atoms tops env as) s e s') :
    ∃ vs, e = .returned vs ∧ Atom.HasAll p.HasTop env as vs ∧ Quiet p s s' := by
  induction as generalizing s s' e with
  | nil =>
    obtain ⟨rfl, rfl⟩ := ends_pure.mp ha
    exact ⟨_, rfl, .nil, .refl hs⟩
  | cons a as ih =>
    obtain ⟨v, s1, ⟨hv, hq⟩, ha⟩ := ha.after (atom_sound h hs)
    obtain ⟨vs, s2, ⟨hvs, hq'⟩, ha⟩ := ha.after (ih hq.knows)
    obtain ⟨rfl, rfl⟩ := ends_pure.mp ha
    exact ⟨_, rfl, .cons hv hvs, hq.trans hq'⟩

theorem atom_complete (h : Complete p allowed has tops) (hs : s.Knows p)
    (hp : allowed s.pending) {a : Atom} {v : Value} (ha : a.Has has env v) :
    ∃ s', Ends (atom tops env a) s (.returned v) s' ∧ Quiet p s s' := by
  cases a with
  | temp t => exact ⟨s, by simp [atom, show env.lookup t = some v from ha], .refl hs⟩
  | top r =>
    obtain ⟨vs, ht, hv⟩ := ha
    obtain ⟨s', hs', hq⟩ := h hs hp ht
    exact ⟨s', hs'.bind (by simp [hv]), hq⟩
  | word | flag | external =>
    obtain rfl : v = _ := ha
    exact ⟨s, by simp [atom], .refl hs⟩

theorem atoms_complete (h : Complete p allowed has tops) (hs : s.Knows p)
    (hp : allowed s.pending) {as : List Atom} {vs : List Value}
    (ha : Atom.HasAll has env as vs) :
    ∃ s', Ends (atoms tops env as) s (.returned vs) s' ∧ Quiet p s s' := by
  induction ha generalizing s with
  | nil => exact ⟨s, by simp [atoms], .refl hs⟩
  | cons hv _ ih =>
    obtain ⟨s1, h1, hq⟩ := atom_complete h hs hp hv
    obtain ⟨s2, h2, hq'⟩ := ih hq.knows (hq.pending ▸ hp)
    exact ⟨s2, h1.bind (h2.bind (by simp)), hq.trans hq'⟩

variable {limit : Nat} {tail : Tail}

theorem ends_select {ctor : Ctor} {field : Nat} {v : Value} {β : Type} {f : Value → Run β}
    {e : Ending β} : Ends (select tail ctor field v >>= f) s e s' ↔ ∃ c fields x,
      v = .data c fields ∧ c.same ctor = true ∧ fields[field]? = some x ∧ Ends (f x) s e s' := by
  unfold select
  split
  · split
    · split <;> simp_all [ends_bind]
    · simp_all [ends_bind]
  · simp_all [ends_bind]

theorem simple_sound (h : Sound p tops) (hs : s.Knows p) {fuel : Nat} (ht : tail.isSimple)
    {e : Ending Step} (hrun : Ends (tailStep p limit tops fuel env tail) s e s') :
    ∃ r : Result, e = r.map .values ∧ Follows p s s' ∧
      tail.Simple p.HasTop Allocates env s.world r s'.world := by
  cases fuel with
  | zero => exact (ends_diverged hrun).elim
  | succ fuel =>
    cases tail with
    | ret args =>
      obtain ⟨vs, s1, ⟨hv, hq⟩, hrun⟩ := hrun.after (atoms_sound h hs)
      obtain ⟨rfl, rfl⟩ := ends_pure.mp hrun
      exact ⟨.returned vs, rfl, hq.toFollows, vs, hv, rfl, hq.world⟩
    | data ctor args =>
      obtain ⟨vs, s1, ⟨hv, hq⟩, hrun⟩ := hrun.after (atoms_sound h hs)
      obtain ⟨rfl, rfl⟩ := ends_pure.mp hrun
      exact ⟨.returned _, rfl, hq.toFollows, vs, hv, rfl, hq.world⟩
    | closure k args =>
      obtain ⟨vs, s1, ⟨hv, hq⟩, hrun⟩ := hrun.after (atoms_sound h hs)
      obtain ⟨rfl, rfl⟩ := ends_pure.mp hrun
      exact ⟨.returned _, rfl, hq.toFollows, vs, _, hv, rfl, rfl, hq.world⟩
    | sel ctor field a =>
      obtain ⟨v, s1, ⟨hv, hq⟩, hrun⟩ := hrun.after (atom_sound h hs)
      obtain ⟨c, fields, x, rfl, hc, hf, hrun⟩ := ends_select.mp hrun
      obtain ⟨rfl, rfl⟩ := ends_pure.mp hrun
      exact ⟨.returned _, rfl, hq.toFollows, c, fields, _, hv, hc, hf, rfl, hq.world⟩
    | prim q args =>
      obtain ⟨vs, s1, ⟨hv, hq⟩, hrun⟩ := hrun.after (atoms_sound h hs)
      simp only [ends_bind, ends_pure, ends_prim, hq.world] at hrun
      obtain ⟨vs', s2, ⟨w, hw, rfl⟩, rfl, rfl⟩ | ⟨rfl, w, hw, rfl⟩ := hrun
      · exact ⟨.returned vs', rfl, hq.toFollows.inWorld w, vs, hv, hw⟩
      · exact ⟨.halted, rfl, hq.toFollows.inWorld w, vs, hv, hw⟩
    | call | enter => cases ht

theorem simple_complete (h : Complete p allowed has tops) (hs : s.Knows p) (hp : allowed s.pending)
    {r : Result} {w' : World} (ht : tail.Simple has Allocates env s.world r w') (limit fuel : Nat) :
    ∃ s', Ends (tailStep p limit tops (fuel + 1) env tail) s (r.map .values) s' ∧ Follows p s s' ∧
      s'.world = w' := by
  cases tail with
  | ret args =>
    obtain ⟨vs, hv, rfl, rfl⟩ := ht
    obtain ⟨s', ha, hq⟩ := atoms_complete h hs hp hv
    exact ⟨s', ha.bind (by simp [Ending.map]), hq.toFollows, hq.world⟩
  | data ctor args =>
    obtain ⟨vs, hv, rfl, rfl⟩ := ht
    obtain ⟨s', ha, hq⟩ := atoms_complete h hs hp hv
    exact ⟨s', ha.bind (by simp [Ending.map]), hq.toFollows, hq.world⟩
  | closure k args =>
    obtain ⟨vs, v, hv, rfl, rfl, rfl⟩ := ht
    obtain ⟨s', ha, hq⟩ := atoms_complete h hs hp hv
    exact ⟨s', ha.bind (by simp [Ending.map]), hq.toFollows, hq.world⟩
  | sel ctor field a =>
    obtain ⟨c, fields, v, hv, hc, hf, rfl, rfl⟩ := ht
    obtain ⟨s', ha, hq⟩ := atom_complete h hs hp hv
    exact ⟨s', ha.bind (ends_select.mpr ⟨c, fields, v, rfl, hc, hf, by simp [Ending.map]⟩),
      hq.toFollows, hq.world⟩
  | prim q args =>
    obtain ⟨vs, hv, hw⟩ := ht
    obtain ⟨s', ha, hq⟩ := atoms_complete h hs hp hv
    have hprim : Ends (prim q vs) s' r (s'.inWorld w') :=
      ends_prim.mpr ⟨w', by rw [hq.world, hw], rfl⟩
    refine ⟨s'.inWorld w', ha.bind ?_, hq.toFollows.inWorld w', rfl⟩
    cases r with
    | returned vs' => exact hprim.bind (by simp [Ending.map])
    | halted => exact ends_bind.mpr (.inr ⟨rfl, hprim⟩)
  | call | enter => exact ht.elim

variable {eval : Env → Tail → Run (List Value)}

theorem ends_topValues {t : TopId} {e : Result} :
    Ends (topValues p eval t) s e s' ↔
      (∃ u vs, s.tops.find? (fun e => e.1 == t) = some (u, vs) ∧ e = .returned vs ∧ s' = s) ∨
      (s.tops.find? (fun e => e.1 == t) = none ∧ t ∉ s.pending ∧
        ∃ top, p.tops[t.index]? = some top ∧
          ((∃ vs s1, Ends (eval [] top.tail) { s with pending := t :: s.pending }
            (.returned vs) s1 ∧
            vs.length = top.lhs.length ∧ e = .returned vs ∧
            s' = { s1 with pending := s1.pending.tail, tops := (t, vs) :: s1.tops }) ∨
          (e = .halted ∧
            Ends (eval [] top.tail) { s with pending := t :: s.pending } .halted s'))) := by
  unfold topValues
  simp only [ends_bind, ends_get, reduceCtorEq, false_and, and_false, or_false]
  cases hfind : s.tops.find? fun e => e.1 == t with
  | some found =>
    obtain ⟨u, vs⟩ := found
    simp [hfind]
  | none =>
    by_cases hp : t ∈ s.pending
    · simp [hfind, hp, ends_bind]
    · simp [hfind, hp, ends_ofFault, Program.top_eq_ok_iff]
      simp [ends_bind, ends_ite, Ending.map]

theorem topValues_sound (hpure : p.PureTops)
    (h : ∀ {tail s e s'}, tail.isPure → s.Knows p → Ends (eval [] tail) s e s' → Follows p s s' ∧
      tail.Simple p.HasTop Allocates [] s.world e s'.world) :
    Sound p (topValues p eval) := by
  intro t s e s' hs hrun
  obtain ⟨u, vs, hfind, rfl, rfl⟩ | ⟨-, -, top, htop, hrun⟩ := ends_topValues.mp hrun
  · have hu : u = t := by simpa using List.find?_some hfind
    exact ⟨_, rfl, hu ▸ hs _ (List.mem_of_find?_eq_some hfind), .refl hs⟩
  · have hpt := hpure.isPure htop
    obtain ⟨vs, s1, heval, hl, rfl, rfl⟩ | ⟨rfl, heval⟩ := hrun
    · obtain ⟨hf, hsimple⟩ := h hpt (by exact hs) heval
      have hvs : p.HasTop t vs := .intro htop hpt hl hsimple
      refine ⟨vs, rfl, hvs, ⟨hf.steps, by simp [hf.pending], ?_⟩, (hsimple.of_isPure hpt).1⟩
      rintro _ (_ | ⟨_, hmem⟩)
      · exact hvs
      · exact hf.knows _ hmem
    · obtain ⟨-, _, ⟨⟩, -⟩ := (h hpt (by exact hs) heval).2.of_isPure hpt

end Run

theorem Program.length_le_tops (p : Program) {ts : List TopId} (hnodup : ts.Nodup)
    (hdefined : ∀ t ∈ ts, t.index < p.tops.size) : ts.length ≤ p.tops.size := by
  have hsub : ts.map TopId.index ⊆ List.range p.tops.size := by
    simpa [List.subset_def] using hdefined
  have hinj : Function.Injective TopId.index := fun ⟨_⟩ ⟨_⟩ h => congrArg TopId.mk h
  simpa using ((hnodup.map hinj).subperm hsub).length_le

namespace Run

variable {p : Program} {limit : Nat} {s s' : Machine}
  {below : Nat → Env → Code → Run (List Value)}

theorem ends_tailLevel_simple {idle : Nat} {env : Env} {tail : Tail} {r : Result}
    (h : Ends (tailStep p limit (topValues p (tailLevel p limit below idle)) (limit + 1) env tail) s
      (r.map .values) s') :
    Ends (tailLevel p limit below (idle + 1) env tail) s r s' := by
  unfold tailLevel
  cases r with
  | returned vs => exact Ends.bind h (by simp)
  | halted => exact ends_bind.mpr (.inr ⟨rfl, h⟩)

theorem tops_sound (hpure : p.PureTops) (idle : Nat) :
    Sound p (topValues p (tailLevel p limit below idle)) := by
  induction idle with
  | zero =>
    refine topValues_sound hpure fun _ _ hrun => ?_
    exact (ends_diverged hrun).elim
  | succ idle ih =>
    refine topValues_sound hpure fun {tail s e s'} ht hs hrun => ?_
    unfold tailLevel at hrun
    obtain ⟨step, s1, hstep, hrest⟩ | ⟨rfl, hstep⟩ := ends_bind.mp hrun
    · obtain ⟨r, hr, hf, hsimple⟩ := simple_sound ih hs (Tail.isSimple_of_isPure ht) hstep
      obtain ⟨-, vs, rfl, -⟩ := hsimple.of_isPure ht
      obtain rfl : step = .values vs := by simpa [Ending.map] using hr
      obtain ⟨rfl, rfl⟩ := ends_pure.mp hrest
      exact ⟨hf, hsimple⟩
    · obtain ⟨r, hr, hf, hsimple⟩ := simple_sound ih hs (Tail.isSimple_of_isPure ht) hstep
      obtain ⟨-, vs, rfl, -⟩ := hsimple.of_isPure ht
      cases hr

/-- The top-levels that are being computed leave room for one that has values of this height. -/
structure Allows (p : Program) (height idle : Nat) (pending : List TopId) : Prop where
  nodup : pending.Nodup
  defined : ∀ t ∈ pending, t.index < p.tops.size
  idle : p.tops.size ≤ idle + pending.length
  higher : ∀ t ∈ pending, ∀ vs, ¬ p.topWithin height t vs

theorem Allows.start (height : Nat) : Allows p height p.tops.size [] :=
  ⟨.nil, by simp, by simp, by simp⟩

theorem Allows.lower {height height' idle : Nat} {pending : List TopId}
    (h : Allows p height' idle pending) (hle : height ≤ height') : Allows p height idle pending :=
  ⟨h.nodup, h.defined, h.idle, fun t ht vs hv => h.higher t ht vs (p.topWithin_mono hle hv)⟩

theorem Allows.push {height height' idle : Nat} {pending : List TopId}
    (h : Allows p height' idle pending) (hle : height ≤ height') {t : TopId} {vs : List Value}
    (ht : p.topWithin height' t vs) (hlow : ∀ vs, ¬ p.topWithin height t vs)
    (hdef : t.index < p.tops.size) : ∃ n, idle = n + 1 ∧ Allows p height n (t :: pending) := by
  have hmem : t ∉ pending := fun hm => h.higher t hm vs ht
  have hnodup : (t :: pending).Nodup := List.nodup_cons.mpr ⟨hmem, h.nodup⟩
  have hdefs : ∀ u ∈ t :: pending, u.index < p.tops.size := by
    simpa using ⟨hdef, h.defined⟩
  have hlen := p.length_le_tops hnodup hdefs
  have := h.idle
  simp only [List.length_cons] at hlen
  refine ⟨idle - 1, by omega, hnodup, hdefs, by simp only [List.length_cons]; omega, ?_⟩
  rintro u (_ | ⟨_, hu⟩) ws
  · exact hlow ws
  · exact fun hw => h.higher u hu ws (p.topWithin_mono hle hw)

theorem tops_complete (height idle : Nat) :
    Complete p (Allows p height idle) (p.topWithin height)
      (topValues p (tailLevel p limit below idle)) := by
  induction height generalizing idle with
  | zero => exact fun _ _ _ _ _ h => h.elim
  | succ height ih =>
    intro t s vs hs hp ht
    by_cases hlow : p.topWithin height t vs
    · exact ih idle hs (hp.lower (Nat.le_succ _)) hlow
    have hnew : ∀ ws, ¬ p.topWithin height t ws := fun ws hw =>
      hlow (Program.topWithin_unique (p.topWithin_mono (Nat.le_succ _) hw) ht ▸ hw)
    cases hfind : s.tops.find? fun e => e.1 == t with
    | some found =>
      -- The values that are kept are the ones that are looked for.
      obtain ⟨u, us⟩ := found
      have hu : u = t := by simpa using List.find?_some hfind
      have hus := hs _ (List.mem_of_find?_eq_some hfind)
      obtain rfl : us = vs := Program.HasTop.unique (hu ▸ hus) ⟨_, ht⟩
      exact ⟨s, ends_topValues.mpr (.inl ⟨u, us, hfind, rfl, rfl⟩), .refl hs⟩
    | none =>
      have hmem : t ∉ s.pending := fun hm => hp.higher t hm vs ht
      obtain ⟨top, htop, hl, hsimple⟩ := ht
      obtain ⟨n, rfl, hp'⟩ := hp.push (Nat.le_succ _) ⟨top, htop, hl, hsimple⟩ hnew
        (Array.getElem?_eq_some_iff.mp htop).1
      obtain ⟨s1, hstep, hf, hw⟩ := simple_complete (ih n)
        (s := { s with pending := t :: s.pending }) hs hp' (hsimple _) limit limit
      refine ⟨{ s1 with pending := s1.pending.tail, tops := (t, vs) :: s1.tops },
        ends_topValues.mpr (.inr ⟨hfind, hmem, top, htop, .inl
          ⟨vs, s1, ends_tailLevel_simple hstep, hl, rfl, rfl⟩⟩),
            ⟨hf.steps, by simp [hf.pending], ?_⟩, hw⟩
      rintro _ (_ | ⟨_, hm⟩)
      · exact ⟨height + 1, top, htop, hl, hsimple⟩
      · exact hf.knows _ hm

end Run

end MonadicIR
