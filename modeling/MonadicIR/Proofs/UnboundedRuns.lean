import MonadicIR.Proofs.Tracking

namespace MonadicIR

/-- The machine, and the top-levels whose computation was started, the last one first. -/
structure Watched where
  machine : Machine := {}
  entered : List TopId := []

/-- A run that is given up when its fuel is used up. -/
abbrev Unbounded := ExceptT Stop (StateT Watched Option)

namespace Unbounded

/-- How a run of the machine ended, with these top-levels entered by then. -/
def watch {α : Type} (entered : List TopId) : EStateM.Result Stop Machine α →
    Except Stop α × Watched
  | .ok a s => (.ok a, ⟨s, entered⟩)
  | .error stop s => (.error stop, ⟨s, entered⟩)

def act {α : Type} (x : Run α) : Unbounded α := fun w => some (watch w.entered (x w.machine))

def enterTop (t : TopId) : Unbounded Unit := fun w =>
  some (.ok (), ⟨{ w.machine with pending := t :: w.machine.pending }, t :: w.entered⟩)

/-- The work is given up. -/
def giveUp {α : Type} : Unbounded α := fun _ => none

variable (p : Program) (limit : Nat)

mutual

def atom : Nat → Nat → Env → Atom → Unbounded Value
  | 0, _, _, _ => giveUp
  | fuel + 1, depth, env, a =>
    match a with
    | .temp t =>
      match env.lookup t with
      | some v => return v
      | none => act (Run.fail (.unbound t))
    | .word w => return .word w
    | .flag b => return .flag b
    | .top r => do
      match (← topValues fuel depth r.top)[r.index]? with
      | some v => return v
      | none => act (Run.fail (.fault (.undefinedTop r.top r.index)))
    | .external name => return .external name

def atoms : Nat → Nat → Env → List Atom → Unbounded (List Value)
  | 0, _, _, _ => giveUp
  | _ + 1, _, _, [] => return []
  | fuel + 1, depth, env, a :: as => do
    let v ← atom fuel depth env a
    return v :: (← atoms fuel depth env as)

/-- The values of a top-level, computed when they are first needed. -/
def topValues : Nat → Nat → TopId → Unbounded (List Value)
  | 0, _, _ => giveUp
  | fuel + 1, depth, t => do
    let s ← act get
    match s.tops.find? fun e => e.1 == t with
    | some (_, values) => return values
    | none =>
      if s.pending.contains t then act (Run.fail (.cyclicTop t))
      let top ← act (Run.ofFault (p.top t))
      enterTop t
      let values ← evalTail fuel depth [] top.tail
      act (modify fun s => { s with pending := s.pending.tail })
      if values.length ≠ top.lhs.length then
        act (Run.fail (.arity (.top t) top.lhs.length values.length))
      act (modify fun s => { s with tops := (t, values) :: s.tops })
      return values

def jump : Nat → Nat → Env → Call → Unbounded (Env × Code)
  | 0, _, _, _ => giveUp
  | fuel + 1, depth, env, c => do
    let block ← act (Run.ofFault (p.block c.target))
    let args ← atoms fuel depth env c.args
    return (← act (Run.enter (.call c.target) block.params args), block.code)

/-- Evaluates a tail up to a jump, through as many closures as it enters. -/
def tailStep : Nat → Nat → Env → Tail → Unbounded Run.Step
  | 0, _, _, _ => giveUp
  | fuel + 1, depth, env, tail =>
    match tail with
    | .ret args => return .values (← atoms fuel depth env args)
    | .call c => do
      let (env, code) ← jump fuel depth env c
      return .jump env code
    | .enter f args => do
      match ← atom fuel depth env f with
      | .closure k stored =>
        let closure ← act (Run.ofFault (p.closure k))
        let args ← atoms fuel depth env args
        let env ← act (Run.enter (.closure k) (closure.stored ++ closure.params) (stored ++ args))
        act (Run.tick limit)
        tailStep fuel depth env closure.tail
      | other => act (Run.fail (.notClosure tail other.kind))
    | .data ctor args => return .values [.data ctor (← atoms fuel depth env args)]
    | .closure k args => return .values [.closure k (← atoms fuel depth env args)]
    | .sel ctor field a =>
      return .values [← act (Run.select tail ctor field (← atom fuel depth env a))]
    | .prim q args => return .values (← act (Run.prim q (← atoms fuel depth env args)))

/-- Evaluates a tail whose results are waited for, below so many calls. -/
def evalTail : Nat → Nat → Env → Tail → Unbounded (List Value)
  | 0, _, _, _ => giveUp
  | fuel + 1, depth, env, tail => do
    match ← tailStep fuel depth env tail with
    | .values vs => return vs
    | .jump env code =>
      if Run.depthLimit ≤ depth then act (Run.fail (.tooDeep Run.depthLimit))
      else evalCode fuel (depth + 1) env code

def evalCode : Nat → Nat → Env → Code → Unbounded (List Value)
  | 0, _, _, _ => giveUp
  | fuel + 1, depth, env, code => do
    act (Run.tick limit)
    match code with
    | .bind vars tail rest =>
      let values ← evalTail fuel depth env tail
      if values.length ≠ vars.length then
        act (Run.fail (.arity (.binding tail) vars.length values.length))
      evalCode fuel depth (env.bind vars values) rest
    | .assert a ctor rest =>
      act (Run.assertCtor ctor (← atom fuel depth env a))
      evalCode fuel depth env rest
    | .done tail =>
      match ← tailStep fuel depth env tail with
      | .values vs => return vs
      | .jump env code => evalCode fuel depth env code
    | .branch test yes no =>
      let c ← act (Run.choose (← atom fuel depth env test) yes no)
      let (env, code) ← jump fuel depth env c
      evalCode fuel depth env code
    | .switch a alts =>
      let c ← act (Run.chooseArm alts (← atom fuel depth env a))
      let (env, code) ← jump fuel depth env c
      evalCode fuel depth env code

end

def evalEntry (fuel : Nat) (entry : DefnId) (args : List Word) : Unbounded (List Value) :=
  match entry, args with
  | .block b, args => do
    let block ← act (Run.ofFault (p.block b))
    let env ← act (Run.enter (.entry b) block.params (args.map .word))
    evalCode p limit fuel 0 env block.code
  | .top t, [] => topValues p limit fuel 0 t
  | d, _ => act (Run.fail (.unsupportedEntrypoint d))

def outcome (w : Watched) : Except Stop (List Value) → Except RunError Outcome
  | .ok values => .ok ⟨w.machine.output.toList, .returned (Value.observeAll values)⟩
  | .error .halted => .ok ⟨w.machine.output.toList, .halted⟩
  | .error .diverged => .ok ⟨w.machine.output.toList, .diverged⟩
  | .error (.failed e) => .error e

/-- Runs a definition with words for its parameters. The outcome comes with the machine at the end. -/
def run (fuel : Nat) (entry : DefnId) (args : List Word) :
    Option (Except RunError Outcome × Watched) :=
  (evalEntry p limit fuel entry args {}).map fun (result, w) => (outcome w result, w)

/-- At least so many steps have been made, these top-levels are being computed, and they and those
with known values are the ones that were entered. -/
structure Holds (limit n : Nat) (pending : List TopId) (w : Watched) : Prop where
  least : n ≤ w.machine.steps
  most : w.machine.steps ≤ limit
  computing : w.machine.pending = pending
  nodup : w.entered.Nodup
  entered : ∀ t, t ∈ w.entered ↔ t ∈ pending ∨ t ∈ w.machine.tops.map Prod.fst

/-- What holds wherever a run has ended. -/
structure Ended (limit : Nat) (w : Watched) : Prop where
  steps : w.machine.steps ≤ limit + 1
  nodup : w.entered.Nodup
  known : ∀ e ∈ w.machine.tops, e.1 ∈ w.entered

variable {p limit} {n m l : Nat} {i j k : List TopId}

theorem Holds.ended {w : Watched} (h : Holds limit n i w) : Ended limit w where
  steps := Nat.le_succ_of_le h.most
  nodup := h.nodup
  known _ he := (h.entered _).mpr (.inr (List.mem_map_of_mem he))

theorem Holds.mono {w : Watched} (h : Holds limit m i w) (hle : n ≤ m) : Holds limit n i w :=
  { h with least := Nat.le_trans hle h.least }

/-- From here on, with enough fuel the run comes to the end of the other one. -/
def EndsAs {α : Type} (limit m : Nat) (j : List TopId) (x : Run α) (y : Nat → Unbounded α)
    (w : Watched) : Prop :=
  ∃ enough entered, (∀ fuel, enough ≤ fuel → y fuel w = some (watch entered (x w.machine))) ∧
    match x w.machine with
    | .ok _ s => Holds limit m j ⟨s, entered⟩
    | .error _ s => Ended limit ⟨s, entered⟩

/-- With enough fuel the run comes to the end of the other one. If that returns, at least `m` steps
have been made and the top-levels `j` are being computed. -/
def Agrees {α : Type} (limit n : Nat) (i : List TopId) (m : Nat) (j : List TopId) (x : Run α)
    (y : Nat → Unbounded α) : Prop :=
  ∀ w, Holds limit n i w → EndsAs limit m j x y w

namespace Agrees

variable {α β : Type} {x : Run α} {y : Nat → Unbounded α} {f : α → Run β}
  {g : α → Nat → Unbounded β}

protected theorem pure (a : α) : Agrees limit n i n i (pure a) (fun _ => pure a) := fun w hw =>
  ⟨0, w.entered, fun _ _ => rfl, hw⟩

/-- A function takes one unit of fuel for its body. -/
theorem more (h : Agrees limit n i m j x fun fuel => y (fuel + 1)) : Agrees limit n i m j x y := by
  intro w hw
  obtain ⟨enough, entered, hy, hend⟩ := h w hw
  refine ⟨enough + 1, entered, fun fuel hfuel => ?_, hend⟩
  obtain ⟨fuel, rfl⟩ := Nat.exists_eq_succ_of_ne_zero (Nat.ne_of_gt (Nat.lt_of_lt_of_le
    (Nat.succ_pos enough) hfuel))
  exact hy fuel (Nat.le_of_succ_le_succ hfuel)

theorem act (hx : ∀ s, (endState (x s)).steps = s.steps ∧ (endState (x s)).pending = s.pending ∧
    (endState (x s)).tops = s.tops) : Agrees limit n i n i x (fun _ => act x) := by
  intro w hw
  obtain ⟨hsteps, hpending, htops⟩ := hx w.machine
  refine ⟨0, w.entered, fun _ _ => rfl, ?_⟩
  have hend : Holds limit n i ⟨endState (x w.machine), w.entered⟩ := by
    refine ⟨?_, ?_, hpending.trans hw.computing, hw.nodup, ?_⟩
    · exact hsteps ▸ hw.least
    · exact hsteps ▸ hw.most
    · exact htops ▸ hw.entered
  revert hend
  cases x w.machine with
  | ok a s => exact id
  | error stop s => exact Holds.ended

theorem looks (hx : Run.Looks x) : Agrees limit n i n i x (fun _ => Unbounded.act x) := by
  refine act fun s => ?_
  obtain ⟨a, ha⟩ | ⟨e, he⟩ := hx s
  · rw [ha]
    exact ⟨rfl, rfl, rfl⟩
  · rw [he]
    exact ⟨rfl, rfl, rfl⟩

theorem fail (e : RunError) : Agrees limit n i m j (Run.fail e : Run α)
    (fun _ => Unbounded.act (Run.fail e)) :=
  fun w hw => ⟨0, w.entered, fun _ _ => rfl, hw.ended⟩

theorem bind_at {w : Watched} (hx : EndsAs limit m j x y w)
    (hf : ∀ a, Agrees limit m j l k (f a) (g a)) :
    EndsAs limit l k (x >>= f) (fun fuel => y fuel >>= fun a => g a fuel) w := by
  obtain ⟨enough, entered, hy, hend⟩ := hx
  have hbind (fuel : Nat) : (y fuel >>= fun a => g a fuel) w = (y fuel w).bind fun r =>
      ExceptT.bindCont (fun a => g a fuel) r.1 r.2 := rfl
  cases hrun : x w.machine with
  | ok a s =>
    rw [hrun] at hy hend
    have hx' : (x >>= f) w.machine = f a s := by simp only [bind, EStateM.bind, hrun]
    obtain ⟨enough', entered', hg, hend'⟩ := hf a ⟨s, entered⟩ hend
    refine ⟨max enough enough', entered', fun fuel hfuel => ?_, hx' ▸ hend'⟩
    beta_reduce
    rw [hbind, hy fuel (le_trans (le_max_left ..) hfuel), hx']
    exact hg fuel (le_trans (le_max_right ..) hfuel)
  | error stop s =>
    rw [hrun] at hy hend
    have hx' : (x >>= f) w.machine = .error stop s := by simp only [bind, EStateM.bind, hrun]
    refine ⟨enough, entered, fun fuel hfuel => ?_, hx' ▸ hend⟩
    beta_reduce
    rw [hbind, hy fuel hfuel, hx']
    rfl

protected theorem bind (hx : Agrees limit n i m j x y)
    (hf : ∀ a, Agrees limit m j l k (f a) (g a)) :
    Agrees limit n i l k (x >>= f) (fun fuel => y fuel >>= fun a => g a fuel) :=
  fun w hw => bind_at (hx w hw) hf

theorem mono (h : Agrees limit n i m j x y) (hle : l ≤ m) : Agrees limit n i l j x y := by
  intro w hw
  obtain ⟨enough, entered, hy, hend⟩ := h w hw
  refine ⟨enough, entered, hy, ?_⟩
  revert hend
  cases x w.machine with
  | ok a s => exact fun hend => hend.mono hle
  | error stop s => exact id

theorem tick : Agrees limit n i (n + 1) i (Run.tick limit)
    (fun _ => Unbounded.act (Run.tick limit)) := by
  intro w hw
  refine ⟨0, w.entered, fun _ _ => rfl, ?_⟩
  rw [Run.tick_apply]
  by_cases hlimit : limit < w.machine.steps + 1
  · rw [if_pos hlimit]
    exact { hw.ended with steps := Nat.succ_le_succ hw.most }
  · rw [if_neg hlimit]
    exact { hw with least := Nat.succ_le_succ hw.least, most := Nat.not_lt.mp hlimit }

end Agrees

variable {tops : TopId → Run (List Value)} {eval : Env → Tail → Run (List Value)} {depth : Nat}
  {pending : List TopId}

/-- Values of top-levels are computed alike while these are being computed. -/
def TopsAgree (p : Program) (limit depth : Nat) (pending : List TopId)
    (tops : TopId → Run (List Value)) : Prop :=
  ∀ n t, Agrees limit n pending n pending (tops t) fun fuel => topValues p limit fuel depth t

def TailsAgree (p : Program) (limit depth : Nat) (pending : List TopId)
    (eval : Env → Tail → Run (List Value)) : Prop :=
  ∀ n env tail, Agrees limit n pending n pending (eval env tail) fun fuel =>
    evalTail p limit fuel depth env tail

section Operands

variable (htops : TopsAgree p limit depth pending tops) (env : Env)

include htops

theorem atom_agrees (a : Atom) : Agrees limit n pending n pending (Run.atom tops env a)
    fun fuel => atom p limit fuel depth env a := by
  refine .more ?_
  cases a with
  | temp t =>
    simp only [Run.atom, atom]
    cases env.lookup t with
    | some v => exact .pure v
    | none => exact .fail _
  | top r =>
    simp only [Run.atom, atom]
    refine .bind (htops n r.top) fun vs => ?_
    cases vs[r.index]? with
    | some v => exact .pure v
    | none => exact .fail _
  | word | flag | external =>
    simp only [Run.atom, atom]
    exact .pure _

theorem atoms_agree (as : List Atom) : Agrees limit n pending n pending (Run.atoms tops env as)
    fun fuel => atoms p limit fuel depth env as := by
  induction as with
  | nil =>
    refine .more ?_
    simp only [Run.atoms, atoms]
    exact .pure _
  | cons a as ih =>
    refine .more ?_
    simp only [Run.atoms, atoms]
    exact .bind (atom_agrees htops env a) fun v => .bind ih fun vs => .pure _

theorem jump_agrees (c : Call) : Agrees limit n pending n pending (Run.jump p tops env c)
    fun fuel => jump p limit fuel depth env c := by
  refine .more ?_
  simp only [Run.jump, jump]
  exact .bind (.looks Run.looks_ofFault) fun block => .bind (atoms_agree htops env c.args)
    fun args => .bind (.looks Run.looks_enter) fun env => .pure _

omit htops in
theorem prim_agrees (q : Prim) (args : List Value) :
    Agrees limit n pending n pending (Run.prim q args)
      fun _ => act (Run.prim q args) := by
  refine .act fun s => ?_
  cases q.request args with
  | load | store | print | ticks | halt | loop => exact ⟨rfl, rfl, rfl⟩
  | value hrun =>
    rw [hrun]
    unfold Run.compute
    cases (args.mapM Value.scalar?).bind q.compute? <;> exact ⟨rfl, rfl, rfl⟩

theorem tailStep_agrees (fuel : Nat) (hfuel : limit < fuel + n) (tail : Tail) :
    Agrees limit n pending n pending (Run.tailStep p limit tops fuel env tail)
      fun fuel => tailStep p limit fuel depth env tail := by
  induction fuel generalizing n env tail with
  | zero =>
    intro w hw
    have := hw.least
    have := hw.most
    omega
  | succ fuel ih =>
    refine .more ?_
    cases tail <;> simp only [Run.tailStep, tailStep]
    case ret args => exact .bind (atoms_agree htops env args) fun vs => .pure _
    case call c => exact .bind (jump_agrees htops env c) fun next => .pure _
    case data ctor args => exact .bind (atoms_agree htops env args) fun vs => .pure _
    case closure k args => exact .bind (atoms_agree htops env args) fun vs => .pure _
    case sel ctor field a =>
      exact .bind (atom_agrees htops env a) fun v => .bind (.looks Run.looks_select) fun _ =>
        .pure _
    case prim q args =>
      exact .bind (atoms_agree htops env args) fun vs => .bind (prim_agrees q vs) fun _ => .pure _
    case enter f args =>
      refine .bind (atom_agrees htops env f) fun v => ?_
      cases v with
      | closure k stored =>
        refine .bind (.looks Run.looks_ofFault) fun closure => ?_
        refine .bind (atoms_agree htops env args) fun args => .bind (.looks Run.looks_enter)
          fun env => ?_
        -- Each closure that is entered takes a step.
        exact (Agrees.bind .tick fun _ => ih env (by omega) closure.tail).mono (Nat.le_succ n)
      | word | flag | data | external => exact .fail _

end Operands

theorem evalCode_agrees (htails : TailsAgree p limit depth pending eval)
    (htops : TopsAgree p limit depth pending tops) (fuel : Nat) (hfuel : limit < fuel + n)
    (env : Env) (code : Code) :
    Agrees limit n pending n pending (Run.runCode p limit eval tops fuel env code)
      fun fuel => evalCode p limit fuel depth env code := by
  induction fuel generalizing n env code with
  | zero =>
    intro w hw
    have := hw.least
    have := hw.most
    omega
  | succ fuel ih =>
    have hticked {x : Run (List Value)} {y : Nat → Unbounded (List Value)}
        (h : Agrees limit (n + 1) pending (n + 1) pending x y) :
        Agrees limit n pending n pending (Run.tick limit >>= fun _ => x)
          fun fuel => act (Run.tick limit) >>= fun _ => y fuel :=
      (Agrees.bind .tick fun _ => h).mono (Nat.le_succ n)
    -- A step has been made, so there is fuel for the rest.
    have hrest (env : Env) (code : Code) := ih (n := n + 1) (by omega) env code
    have hstep (env : Env) (tail : Tail) : Agrees limit (n + 1) pending (n + 1) pending
        (Run.tailStep p limit tops (limit + 1) env tail)
        fun fuel => tailStep p limit fuel depth env tail :=
      tailStep_agrees htops env (limit + 1) (by omega) tail
    refine .more ?_
    cases code <;> simp only [Run.runCode, evalCode] <;> refine hticked ?_
    case bind vars tail rest =>
      refine .bind (htails _ env tail) fun vs => ?_
      split
      · exact .bind (.fail _) fun _ => hrest _ _
      · exact hrest _ _
    case assert a ctor rest =>
      exact .bind (atom_agrees htops env a) fun v => .bind (.looks Run.looks_assertCtor) fun _ =>
        hrest _ _
    case done tail =>
      refine .bind (hstep env tail) fun step => ?_
      cases step with
      | values vs => exact .pure vs
      | jump env code => exact hrest env code
    case branch test yes no =>
      exact .bind (atom_agrees htops env test) fun v => .bind (.looks Run.looks_choose) fun c =>
        .bind (jump_agrees htops env c) fun next => hrest next.1 next.2
    case switch a alts =>
      exact .bind (atom_agrees htops env a) fun v => .bind (.looks Run.looks_chooseArm) fun c =>
        .bind (jump_agrees htops env c) fun next => hrest next.1 next.2

/-- A top-level that has neither values nor been started is entered for the first time. -/
theorem Holds.enterTop {w : Watched} (hw : Holds limit n pending w) {t : TopId}
    (hfind : w.machine.tops.find? (fun e => e.1 == t) = none) (ht : t ∉ pending) :
    Holds limit n (t :: pending)
      ⟨{ w.machine with pending := t :: w.machine.pending }, t :: w.entered⟩ := by
  have hknown : t ∉ w.machine.tops.map Prod.fst := by
    intro hmem
    obtain ⟨e, he, rfl⟩ := List.mem_map.mp hmem
    simpa using List.find?_eq_none.mp hfind e he
  refine ⟨hw.least, hw.most, congrArg (t :: ·) hw.computing, ?_, fun u => ?_⟩
  · exact List.nodup_cons.mpr ⟨fun hmem => ((hw.entered t).mp hmem).elim ht hknown, hw.nodup⟩
  · rw [List.mem_cons, List.mem_cons, hw.entered, or_assoc]

theorem Holds.leaveTop {w : Watched} {t : TopId} (hw : Holds limit n (t :: pending) w)
    (values : List Value) : Holds limit n pending ⟨{ w.machine with
      pending := w.machine.pending.tail, tops := (t, values) :: w.machine.tops }, w.entered⟩ := by
  refine ⟨hw.least, hw.most, by simp [hw.computing], hw.nodup, fun u => ?_⟩
  rw [hw.entered]
  simp only [List.mem_cons, List.map_cons]
  tauto

theorem EndsAs.get {α : Type} {f : Machine → Run α} {g : Machine → Nat → Unbounded α} {w : Watched}
    (h : EndsAs limit m j (f w.machine) (g w.machine) w) :
    EndsAs limit m j (get >>= f) (fun fuel => act get >>= fun s => g s fuel) w := h

theorem EndsAs.enterTop {α : Type} {t : TopId} {f : Unit → Run α} {g : Unit → Nat → Unbounded α}
    {w : Watched} (h : EndsAs limit m j (f ()) (g ())
      ⟨{ w.machine with pending := t :: w.machine.pending }, t :: w.entered⟩) :
    EndsAs limit m j ((modify fun s => { s with pending := t :: s.pending }) >>= f)
      (fun fuel => Unbounded.enterTop t >>= fun a => g a fuel) w := h

/-- The values of a top-level that is not known and not being computed are computed alike. -/
theorem computeTop_agrees {t : TopId} {top : TopLevel} {w : Watched} (hw : Holds limit n pending w)
    (hfind : w.machine.tops.find? (fun e => e.1 == t) = none) (ht : t ∉ pending)
    (heval : TailsAgree p limit depth (t :: pending) eval) :
    EndsAs limit n pending (do
      modify fun s => { s with pending := t :: s.pending }
      let values ← eval [] top.tail
      modify fun s => { s with pending := s.pending.tail }
      if values.length ≠ top.lhs.length then
        Run.fail (.arity (.top t) top.lhs.length values.length)
      modify fun s => { s with tops := (t, values) :: s.tops }
      return values) (fun fuel => do
      enterTop t
      let values ← evalTail p limit fuel depth [] top.tail
      act (modify fun s => { s with pending := s.pending.tail })
      if values.length ≠ top.lhs.length then
        act (Run.fail (.arity (.top t) top.lhs.length values.length))
      act (modify fun s => { s with tops := (t, values) :: s.tops })
      return values) w := by
  refine .enterTop (Agrees.bind_at (heval n [] top.tail _ (hw.enterTop hfind ht)) fun values => ?_)
  intro w hw
  by_cases hlen : values.length = top.lhs.length
  · simp only [hlen, ne_eq, not_true_eq_false, if_false]
    exact ⟨0, w.entered, fun _ _ => rfl, hw.leaveTop values⟩
  · simp only [hlen, ne_eq, not_false_eq_true, if_true]
    exact ⟨0, w.entered, fun _ _ => rfl, hw.ended.steps, hw.nodup, hw.ended.known⟩

theorem topValues_agrees (t : TopId) (heval : t ∉ pending → t.index < p.tops.size →
      TailsAgree p limit depth (t :: pending) eval) :
    Agrees limit n pending n pending (Run.topValues p eval t)
      fun fuel => topValues p limit fuel depth t := by
  refine .more fun w hw => ?_
  simp only [Run.topValues, topValues]
  refine .get ?_
  cases hfind : w.machine.tops.find? fun e => e.1 == t with
  | some found => exact ⟨0, w.entered, fun _ _ => rfl, hw⟩
  | none =>
    by_cases ht : t ∈ pending
    · simp only [hw.computing, List.contains_iff_mem.mpr ht, if_true]
      exact ⟨0, w.entered, fun _ _ => rfl, hw.ended⟩
    · have hcontains : pending.contains t = false := by simpa using ht
      simp only [hw.computing, hcontains, Bool.false_eq_true, if_false]
      cases htop : p.top t with
      | error f => exact ⟨0, w.entered, fun _ _ => rfl, hw.ended⟩
      | ok top =>
        have hdefined := (Array.getElem?_eq_some_iff.mp (Program.top_eq_ok_iff.mp htop)).1
        exact computeTop_agrees hw hfind ht (heval ht hdefined)

/-- At one depth, tails are evaluated alike if the code that they jump to is run alike. -/
theorem tailLevel_agrees {below : Nat → Env → Code → Run (List Value)}
    (hbelow : ∀ {idle pending}, Run.Room p idle pending → ∀ n env code,
      Agrees limit n pending n pending (below idle env code) fun fuel =>
        if Run.depthLimit ≤ depth then act (Run.fail (.tooDeep Run.depthLimit))
        else evalCode p limit fuel (depth + 1) env code)
    {idle : Nat} {pending : List TopId} (hroom : Run.Room p idle pending) :
    TailsAgree p limit depth pending (Run.tailLevel p limit below idle) := by
  -- A top-level that is entered takes one of those that are left, and all of them are different.
  induction idle generalizing pending with
  | zero =>
    obtain ⟨_, h⟩ := hroom.pos
    cases h
  | succ idle ih =>
    have htops : TopsAgree p limit depth pending
      (Run.topValues p (Run.tailLevel p limit below idle)) :=
      fun n t => topValues_agrees t fun ht hdefined => ih (hroom.push ht hdefined)
    refine fun n env tail => .more ?_
    simp only [Run.tailLevel, evalTail]
    refine .bind (tailStep_agrees htops env (limit + 1) (by omega) tail) fun step => ?_
    cases step with
    | values vs => exact .pure vs
    | jump env code => exact hbelow hroom n env code

theorem evalTail_agrees {left : Nat} (hdepth : depth + left = Run.depthLimit) {idle : Nat}
    {pending : List TopId} (hroom : Run.Room p idle pending) :
    TailsAgree p limit depth pending (Run.evalTail p limit left idle) := by
  induction left generalizing depth idle pending with
  | zero =>
    refine tailLevel_agrees (fun hroom n env code => ?_) hroom
    simp only [if_pos (show Run.depthLimit ≤ depth by omega)]
    exact .fail _
  | succ left ih =>
    refine tailLevel_agrees (fun {idle pending} hroom n env code => ?_) hroom
    simp only [if_neg (show ¬Run.depthLimit ≤ depth by omega)]
    have hbelow {idle : Nat} {pending : List TopId} (hroom : Run.Room p idle pending) :=
      ih (show depth + 1 + left = Run.depthLimit by omega) hroom
    exact evalCode_agrees (hbelow hroom) (fun n t => topValues_agrees t fun ht hdefined =>
      hbelow (hroom.push ht hdefined)) (limit + 1) (by omega) env code

theorem evalEntry_agrees (entry : DefnId) (args : List Word) :
    Agrees limit 0 [] 0 [] (Run.evalEntry p limit entry args)
      fun fuel => evalEntry p limit fuel entry args := by
  have hroom := Run.Room.start p
  have htails {idle : Nat} {pending : List TopId} (hroom : Run.Room p idle pending) :
      TailsAgree p limit 0 pending (Run.evalTail p limit Run.depthLimit idle) :=
    evalTail_agrees (Nat.zero_add _) hroom
  have htops : TopsAgree p limit 0 []
      (Run.topValues p (Run.evalTail p limit Run.depthLimit p.tops.size)) :=
    fun n t => topValues_agrees t fun ht hdefined => htails (hroom.push ht hdefined)
  cases entry with
  | block b =>
    refine .bind (.looks Run.looks_ofFault) fun block => .bind (.looks Run.looks_enter) fun env =>
      ?_
    exact evalCode_agrees (htails hroom) htops (limit + 1) (by omega) env block.code
  | closure k => exact .fail _
  | top t =>
    cases args with
    | nil => exact htops 0 t
    | cons => exact .fail _

/-- Every run comes to an end: from some amount of fuel on it is not given up. It ends as the
machine says, after no more ticks than the limit and one, and with no top-level entered twice; those
whose values are known have been entered. -/
theorem run_comesToEnd (p : Program) (entry : DefnId) (args : List Word) (limit : Nat) :
    ∃ enough w, (∀ fuel, enough ≤ fuel →
        run p limit fuel entry args = some (p.run entry args limit, w)) ∧
      w.machine.steps ≤ limit + 1 ∧ w.entered.Nodup ∧ ∀ e ∈ w.machine.tops, e.1 ∈ w.entered := by
  have hstart : Holds limit 0 [] {} := ⟨Nat.zero_le _, Nat.zero_le _, rfl, List.nodup_nil, by simp⟩
  obtain ⟨enough, entered, hrun, hend⟩ := evalEntry_agrees (p := p) entry args {} hstart
  have hmachine : ({} : Watched).machine = {} := rfl
  rw [hmachine] at hrun hend
  beta_reduce at hrun
  refine ⟨enough, ⟨endState (Run.evalEntry p limit entry args {}), entered⟩, fun fuel hfuel => ?_,
    ?_⟩
  · rw [run, hrun fuel hfuel, Program.run]
    cases Run.evalEntry p limit entry args {} with
    | ok values s => rfl
    | error stop s => cases stop <;> rfl
  · revert hend
    cases Run.evalEntry p limit entry args {} with
    | ok values s => exact fun hend => ⟨hend.ended.steps, hend.nodup, hend.ended.known⟩
    | error stop s => exact fun hend => ⟨hend.steps, hend.nodup, hend.known⟩

end Unbounded

end MonadicIR
