import MonadicIR.Proofs.MachineRuns

namespace MonadicIR

open Program Run

open Machine (Follows Quiet)

/-- Between the steps of code no top-level is being computed, and the steps are within the limit. -/
structure Machine.Settled (p : Program) (limit : Nat) (s : Machine) : Prop where
  knows : s.Knows p
  pending : s.pending = []
  steps : s.steps ≤ limit

theorem Machine.Settled.follow {p : Program} {limit : Nat} {s s' : Machine}
    (h : s.Settled p limit) (hf : Follows p s s') : s'.Settled p limit :=
  ⟨hf.knows, hf.pending.trans h.pending, hf.steps ▸ h.steps⟩

theorem Machine.Settled.tick {p : Program} {limit : Nat} {s : Machine}
    (h : s.Settled p limit) (hlt : s.steps < limit) :
    Settled p limit { s with steps := s.steps + 1 } :=
  ⟨h.knows, h.pending, hlt⟩

open Machine (Settled)

namespace Program

abbrev counted (p : Program) (calls : Nat) : Meaning := p.meaning .machine calls

variable {p : Program} {calls : Nat} {env : Env} {w w' : World} {r : Result} {room : Nat}

theorem runs_of_simple {tail : Tail} (h : tail.Simple p.HasTop Allocates env w r w') :
    tail.Runs (p.counted calls) room env .nothing w r w' := by
  cases tail <;> first | exact ⟨rfl, by simpa using h⟩ | exact h.elim

theorem simple_of_runs {tail : Tail} (ht : tail.isSimple) {u : Use}
    (h : tail.Runs (p.counted calls) room env u w r w') :
    u = .nothing ∧
      tail.Simple p.HasTop Allocates env w r w' := by
  cases tail <;> first | exact ⟨h.1, by simpa using h.2⟩ | cases ht

theorem runs_call {c : Call} {block : Block} {vs : List Value} {depth n : Nat}
    (hb : p.blocks[c.target.index]? = some block) (hv : Atom.HasAll p.HasTop env c.args vs)
    (hl : block.params.length = vs.length)
    (hrun : block.code.Runs (p.counted calls) .machine depth n 0 (Env.bind [] block.params vs) w r
      w') :
    c.Runs (p.counted (calls + 1)) depth env (.block n 0) w r w' :=
  ⟨vs, n, by simpa using hv, by simp, block, hb, hl, hrun⟩

theorem runs_enter {f : Atom} {args : List Atom} {k : ClosureId} {stored vs : List Value}
    {closure : Closure} {u : Use} (hf : f.Has p.HasTop env (.closure k stored))
    (hk : p.closures[k.index]? = some closure) (hv : Atom.HasAll p.HasTop env args vs)
    (hl : (closure.stored ++ closure.params).length = (stored ++ vs).length)
    (hrun : closure.tail.Runs (p.counted calls) room (Env.bind [] (closure.stored ++ closure.params)
      (stored ++ vs)) u w r w') :
    (Tail.enter f args).Runs (p.counted (calls + 1)) room env (.closure (u.cost + 1)) w r w' :=
  ⟨_, vs, _, by simpa using hf, by simpa using hv, rfl, k, stored, closure, u, rfl, hk, hl,
    Use.endsWithin_zero_iff.mpr (Nat.lt_succ_self _), hrun⟩

end Program

namespace Run

variable {p : Program} {limit : Nat} {tops : TopId → Run (List Value)}
  {allowed : List TopId → Prop} {has : TopId → List Value → Prop} {env : Env} {s s' : Machine}

theorem jump_sound (h : Sound p tops) (hs : s.Knows p) {c : Call} {e : Ending (Env × Code)}
    (hrun : Ends (jump p tops env c) s e s') :
    ∃ next, e = .returned next ∧ ∃ block vs, p.blocks[c.target.index]? = some block ∧
      Atom.HasAll p.HasTop env c.args vs ∧ block.params.length = vs.length ∧
      next = (Env.bind [] block.params vs, block.code) ∧ Quiet p s s' := by
  obtain ⟨block, hb, hrun⟩ := ends_ofFault.mp hrun
  obtain ⟨vs, s1, ⟨hv, hq⟩, hrun⟩ := hrun.after (atoms_sound h hs)
  obtain ⟨hl, hrun⟩ := ends_enter.mp hrun
  obtain ⟨rfl, rfl⟩ := ends_pure.mp hrun
  exact ⟨_, rfl, block, vs, block_eq_ok_iff.mp hb, hv, hl, rfl, hq⟩

theorem jump_complete (h : Complete p allowed has tops) (hs : s.Knows p) (hp : allowed s.pending)
    {c : Call} {block : Block} {vs : List Value} (hb : p.blocks[c.target.index]? = some block)
    (hv : Atom.HasAll has env c.args vs) (hl : block.params.length = vs.length) :
    ∃ s', Ends (jump p tops env c) s (.returned (Env.bind [] block.params vs, block.code)) s' ∧
      Quiet p s s' := by
  obtain ⟨s', ha, hq⟩ := atoms_complete h hs hp hv
  exact ⟨s', ends_ofFault.mpr ⟨block, block_eq_ok_iff.mpr hb,
    ha.bind (ends_enter.mpr ⟨hl, ends_pure.mpr ⟨rfl, rfl⟩⟩)⟩, hq⟩

def Carries (p : Program) (env : Env) (tail : Tail) (s : Machine) : Ending Step → Machine → Prop
  | .returned (.values vs), s' => ∃ calls u, s.steps + u.cost = s'.steps ∧
      ∀ room, tail.Runs (p.counted calls) room env u s.world (.returned vs) s'.world
  | .halted, s' => ∃ calls u, s.steps + u.cost = s'.steps ∧
      ∀ room, tail.Runs (p.counted calls) room env u s.world .halted s'.world
  | .returned (.jump env' code), s' => ∀ {calls depth n r w'},
      code.Runs (p.counted calls) .machine depth n 0 env' s'.world r w' →
      ∃ calls' u, s.steps + u.cost = s'.steps + n ∧
        tail.Runs (p.counted calls') (depth + 1) env u s.world r w'

theorem Carries.enter {f : Atom} {args : List Atom} {k : ClosureId} {stored vs : List Value}
    {closure : Closure} {e : Ending Step} (hf : f.Has p.HasTop env (.closure k stored))
    (hk : p.closures[k.index]? = some closure) (hv : Atom.HasAll p.HasTop env args vs)
    (hl : (closure.stored ++ closure.params).length = (stored ++ vs).length) {s1 : Machine}
    (hsteps : s1.steps = s.steps + 1) (hworld : s1.world = s.world)
    (h : Carries p (Env.bind [] (closure.stored ++ closure.params) (stored ++ vs)) closure.tail s1 e
      s') : Carries p env (.enter f args) s e s' := by
  unfold Carries at h ⊢
  split at h
  · obtain ⟨calls, u, hu, hrun⟩ := h
    rw [hworld] at hrun
    exact ⟨_, _, by rw [Use.cost_closure]; omega, fun room => runs_enter hf hk hv hl (hrun room)⟩
  · obtain ⟨calls, u, hu, hrun⟩ := h
    rw [hworld] at hrun
    exact ⟨_, _, by rw [Use.cost_closure]; omega, fun room => runs_enter hf hk hv hl (hrun room)⟩
  · intro calls depth n r w' hcode
    obtain ⟨calls', u, hu, hrun⟩ := h hcode
    rw [hworld] at hrun
    exact ⟨_, _, by rw [Use.cost_closure]; omega, runs_enter hf hk hv hl hrun⟩

theorem tailStep_sound (h : Sound p tops) {fuel : Nat} {tail : Tail} {e : Ending Step}
    (hs : s.Settled p limit) (hrun : Ends (tailStep p limit tops fuel env tail) s e s') :
    s'.Settled p limit ∧ Carries p env tail s e s' := by
  induction fuel generalizing env tail s with
  | zero => exact (ends_diverged hrun).elim
  | succ fuel ih =>
    by_cases hsimple : tail.isSimple
    · obtain ⟨r, rfl, hf, hr⟩ := simple_sound h hs.knows hsimple hrun
      refine ⟨hs.follow hf, ?_⟩
      cases r with
      | returned | halted =>
        exact ⟨0, .nothing, hf.steps.symm, fun room => runs_of_simple hr⟩
    · cases tail with
      | call c =>
        obtain ⟨_, s1, ⟨block, vs, hb, hv, hl, rfl, hq⟩, hrun⟩ := hrun.after (jump_sound h hs.knows)
        obtain ⟨rfl, rfl⟩ := ends_pure.mp hrun
        refine ⟨hs.follow hq.toFollows, fun {calls depth n r w'} hcode => ?_⟩
        rw [hq.world] at hcode
        exact ⟨calls + 1, .block n 0, by simp [Use.cost, hq.steps], depth, rfl,
          runs_call hb hv hl hcode⟩
      | enter f args =>
        obtain ⟨v, s1, ⟨hv, hq⟩, hrun⟩ := hrun.after (atom_sound h hs.knows)
        split at hrun
        · obtain ⟨closure, hk, hrun⟩ := ends_ofFault.mp hrun
          obtain ⟨vs, s2, ⟨hvs, hq'⟩, hrun⟩ := hrun.after (atoms_sound h hq.knows)
          obtain ⟨hl, hrun⟩ := ends_enter.mp hrun
          obtain ⟨hlt, hrun⟩ := ends_tick.mp hrun
          have hq := hq.trans hq'
          obtain ⟨hs', hc⟩ := ih ((hs.follow hq.toFollows).tick hlt) hrun
          refine ⟨hs', hc.enter hv (closure_eq_ok_iff.mp hk) hvs hl ?_ ?_⟩
          · simp [hq.steps]
          · exact hq.world
        · exact (ends_fail hrun).elim
      | ret | data | closure | sel | prim => exact (hsimple rfl).elim

/-- Tails are evaluated to what they may run to, where this many calls may nest. -/
def SoundAt (p : Program) (limit room : Nat) (eval : Env → Tail → Run (List Value)) : Prop :=
  ∀ ⦃env tail s e s'⦄, s.Settled p limit → Ends (eval env tail) s e s' → s'.Settled p limit ∧
    ∃ calls u, s.steps + u.cost = s'.steps ∧
      tail.Runs (p.counted calls) room env u s.world e s'.world

/-- Code ends as it may run, with as much cost as steps are taken. -/
def Explains (p : Program) (depth : Nat) (env : Env) (code : Code) (s : Machine) (e : Result)
    (s' : Machine) : Prop :=
  ∃ calls n, s.steps + n = s'.steps ∧
    code.Runs (p.counted calls) .machine depth n 0 env s.world e s'.world

section Choices

variable {β : Type} {v : Value} {e : Ending β}

theorem ends_choose {yes no : Call} {f : Call → Run β} : Ends (choose v yes no >>= f) s e s' ↔
    ∃ b, v = .flag b ∧ Ends (f (if b then yes else no)) s e s' := by
  unfold choose
  split <;> simp_all [ends_bind]

theorem ends_chooseArm {alts : Alts} {f : Call → Run β} : Ends (chooseArm alts v >>= f) s e s' ↔
    ∃ c fields taken, v = .data c fields ∧ alts.select c = some taken ∧ Ends (f taken) s e s' := by
  unfold chooseArm
  split
  · split <;> simp_all [ends_bind]
  · simp_all [ends_bind]

theorem ends_assertCtor {ctor : Ctor} {f : Unit → Run β} : Ends (assertCtor ctor v >>= f) s e s' ↔
    ∃ c fields, v = .data c fields ∧ c.same ctor = true ∧ Ends (f ()) s e s' := by
  unfold assertCtor
  split
  · split <;> simp_all [ends_bind]
  · simp_all [ends_bind]

end Choices

theorem runCode_sound (h : Sound p tops) {depth : Nat} {eval : Env → Tail → Run (List Value)}
    (heval : SoundAt p limit depth eval) {fuel : Nat} {code : Code} {e : Result}
    (hs : s.Settled p limit) (hrun : Ends (runCode p limit eval tops fuel env code) s e s') :
    s'.Settled p limit ∧ Explains p depth env code s e s' := by
  induction fuel generalizing env code s with
  | zero => exact (ends_diverged hrun).elim
  | succ fuel ih =>
    obtain ⟨hlt, hrun⟩ := ends_tick.mp hrun
    have hs := hs.tick hlt
    have hstep {calls n : Nat} (hn : s.steps + 1 + n = s'.steps)
        (hcode : code.Runs (p.counted calls) .machine depth (n + 1) 0 env s.world e s'.world) :
        Explains p depth env code s e s' := ⟨calls, n + 1, by omega, hcode⟩
    have hgoto {c : Call} {s1 : Machine} (hq : Quiet p { s with steps := s.steps + 1 } s1)
        (hrun : Ends (do
          let next ← jump p tops env c
          runCode p limit eval tops fuel next.1 next.2) s1 e s') :
        s'.Settled p limit ∧ ∃ calls n, s.steps + 1 + n = s'.steps ∧
          c.Runs (p.counted calls) depth env (.block n 0) s.world e s'.world := by
      obtain ⟨_, s2, ⟨block, vs, hb, hv, hl, rfl, hq'⟩, hrun⟩ := hrun.after (jump_sound h hq.knows)
      have hq := hq.trans hq'
      obtain ⟨hs', calls, n, hn, hcode⟩ := ih (hs.follow hq.toFollows) hrun
      rw [hq.world] at hcode
      exact ⟨hs', calls + 1, n, by rw [← hn, hq.steps], runs_call hb hv hl hcode⟩
    cases code with
    | bind vars tail rest =>
      simp only [ends_bind, ends_ite, ends_fail, ite_not] at hrun
      obtain ⟨vs, s1, ht, hrun⟩ | ⟨rfl, ht⟩ := hrun
      · obtain ⟨hs1, calls, u, hu, hrunt⟩ := heval hs ht
        split at hrun
        · rename_i hl
          obtain ⟨hs', calls', n, hn, hrest⟩ := ih hs1 hrun
          refine ⟨hs', max calls calls', 1 + u.cost + n, ?_, by simp [Rules.machine], u, .inr
            ⟨vs, s1.world, n, le_rfl, hrunt.mono (p.meaning_mono _ (Nat.le_max_left ..)), hl, ?_⟩⟩
          · simp only at hu
            omega
          · exact hrest.mono (p.meaning_mono _ (Nat.le_max_right ..)) (.refl _) le_rfl
              (Nat.zero_le _)
        · simp at hrun
      · obtain ⟨hs', calls, u, hu, hrunt⟩ := heval hs ht
        exact ⟨hs', hstep hu ⟨by simp [Rules.machine], u, .inl ⟨u.endsWithin_succ, rfl, hrunt⟩⟩⟩
    | assert a ctor rest =>
      obtain ⟨v, s1, ⟨hv, hq⟩, hrun⟩ := hrun.after (atom_sound h hs.knows)
      obtain ⟨c, fields, rfl, hc, hrun⟩ := ends_assertCtor.mp hrun
      obtain ⟨hs', calls, n, hn, hrest⟩ := ih (hs.follow hq.toFollows) hrun
      rw [hq.world] at hrest
      refine ⟨hs', hstep (hq.steps ▸ hn) ⟨c, fields, n, by simpa using hv, hc, ?_, hrest⟩⟩
      exact (Nat.add_comm 1 n).le
    | done tail =>
      obtain ⟨step, s1, ht, hrun⟩ | ⟨rfl, ht⟩ := ends_bind.mp hrun
      · obtain ⟨hs1, hc⟩ := tailStep_sound h hs ht
        cases step with
        | values vs =>
          obtain ⟨rfl, rfl⟩ := ends_pure.mp hrun
          obtain ⟨calls, u, hu, hrunt⟩ := hc
          exact ⟨hs1, hstep hu ⟨u, u.endsWithin_succ, hrunt _⟩⟩
        | jump env' code =>
          obtain ⟨hs', calls, n, hn, hcode⟩ := ih hs1 hrun
          obtain ⟨calls', u, hu, hrunt⟩ := hc hcode
          exact ⟨hs', hstep (hu.trans hn) ⟨u, u.endsWithin_succ, hrunt⟩⟩
      · obtain ⟨hs', calls, u, hu, hrunt⟩ := tailStep_sound h hs ht
        exact ⟨hs', hstep hu ⟨u, u.endsWithin_succ, hrunt _⟩⟩
    | branch test yes no =>
      obtain ⟨v, s1, ⟨hv, hq⟩, hrun⟩ := hrun.after (atom_sound h hs.knows)
      obtain ⟨b, rfl, hrun⟩ := ends_choose.mp hrun
      obtain ⟨hs', calls, n, hn, hcall⟩ := hgoto hq hrun
      exact ⟨hs', hstep hn
        ⟨b, .block n 0, by simpa using hv, (Use.block n 0).endsWithin_succ, hcall⟩⟩
    | switch a alts =>
      obtain ⟨v, s1, ⟨hv, hq⟩, hrun⟩ := hrun.after (atom_sound h hs.knows)
      obtain ⟨c, fields, taken, rfl, hsel, hrun⟩ := ends_chooseArm.mp hrun
      obtain ⟨hs', calls, n, hn, hcall⟩ := hgoto hq hrun
      exact ⟨hs', hstep hn ⟨c, fields, taken, .block n 0, by simpa using hv, hsel, trivial,
        (Use.block n 0).endsWithin_succ, hcall⟩⟩

theorem tailLevel_sound (hpure : p.PureTops) {room : Nat}
    {below : Nat → Env → Code → Run (List Value)}
    (hbelow : ∀ {idle env code s e s'}, s.Settled p limit → Ends (below idle env code) s e s' →
      s'.Settled p limit ∧ ∃ depth, room = depth + 1 ∧ Explains p depth env code s e s')
    (idle : Nat) : SoundAt p limit room (tailLevel p limit below idle) := by
  intro env tail s e s' hs hrun
  cases idle with
  | zero => exact (ends_diverged hrun).elim
  | succ idle =>
    obtain ⟨step, s1, ht, hrun⟩ | ⟨rfl, ht⟩ := ends_bind.mp hrun
    · obtain ⟨hs1, hc⟩ := tailStep_sound (tops_sound hpure idle) hs ht
      cases step with
      | values vs =>
        obtain ⟨rfl, rfl⟩ := ends_pure.mp hrun
        obtain ⟨calls, u, hu, hrunt⟩ := hc
        exact ⟨hs1, calls, u, hu, hrunt _⟩
      | jump env' code =>
        obtain ⟨hs', depth, rfl, calls, n, hn, hcode⟩ := hbelow hs1 hrun
        obtain ⟨calls', u, hu, hrunt⟩ := hc hcode
        exact ⟨hs', calls', u, by omega, hrunt⟩
    · obtain ⟨hs', calls, u, hu, hrunt⟩ := tailStep_sound (tops_sound hpure idle) hs ht
      exact ⟨hs', calls, u, hu, hrunt _⟩

theorem evalTail_sound (hpure : p.PureTops) (depth idle : Nat) :
    SoundAt p limit depth (evalTail p limit depth idle) := by
  induction depth generalizing idle with
  | zero => exact tailLevel_sound hpure (fun _ hrun => (ends_fail hrun).elim) idle
  | succ depth ih =>
    refine tailLevel_sound hpure (fun {idle env code s e s'} hs hrun => ?_) idle
    have htops : Sound p (topValues p (evalTail p limit depth (idle - 1))) := by
      cases depth <;> exact tops_sound hpure _
    obtain ⟨hs', hcode⟩ := runCode_sound htops (ih idle) hs hrun
    exact ⟨hs', depth, rfl, hcode⟩

theorem evalCode_sound (hpure : p.PureTops) {depth idle : Nat} {code : Code} {e : Result}
    (hs : s.Settled p limit) (hrun : Ends (evalCode p limit depth idle env code) s e s') :
    s'.Settled p limit ∧ Explains p depth env code s e s' := by
  have htops : Sound p (topValues p (evalTail p limit depth (idle - 1))) := by
    cases depth <;> exact tops_sound hpure _
  exact runCode_sound htops (evalTail_sound hpure depth idle) hs hrun

end Run

namespace Run

variable {p : Program} {limit : Nat} {tops : TopId → Run (List Value)} {env : Env} {s s' : Machine}
  {w' : World} {r : Result} {below : Nat → Env → Code → Run (List Value)} {tail : Tail} {u : Use}

/-- The machine gets to this result, within a bound on its steps. -/
def Reaches (p : Program) (limit : Nat) (x : Run (List Value)) (s : Machine) (r : Result)
    (w' : World) (bound : Nat) : Prop :=
  ∃ s', Ends x s r s' ∧ s'.Settled p limit ∧ s'.world = w' ∧ s'.steps ≤ bound

/-- Every value of a top-level is computed when no top-level is being computed. -/
abbrev CompleteAtRest (p : Program) (tops : TopId → Run (List Value)) : Prop :=
  Complete p (· = []) p.HasTop tops

theorem tops_completeAtRest :
    CompleteAtRest p (topValues p (tailLevel p limit below p.tops.size)) := by
  rintro t s vs hs hp ⟨height, ht⟩
  exact tops_complete height _ hs (hp ▸ .start height) ht

theorem simple_reaches (h : CompleteAtRest p tops) {calls room fuel : Nat} (hs : s.Settled p limit)
    (hrun : tail.Runs (p.counted calls) room env u s.world r w') (hsimple : tail.isSimple)
    (hfuel : u.cost < fuel) :
    ∃ s', Ends (tailStep p limit tops fuel env tail) s (r.map .values) s' ∧ s'.Settled p limit ∧
      s'.world = w' ∧ s'.steps ≤ s.steps + u.cost := by
  obtain ⟨rfl, ht⟩ := simple_of_runs hsimple hrun
  obtain ⟨fuel, rfl⟩ := Nat.exists_eq_add_of_lt hfuel
  obtain ⟨s', hs', hf, hw⟩ := simple_complete h hs.knows hs.pending ht limit _
  exact ⟨s', hs', hs.follow hf, hw, by simp [hf.steps]⟩

theorem tailStep_complete (h : CompleteAtRest p tops) {calls room fuel : Nat}
    (hs : s.Settled p limit) (hrun : tail.Runs (p.counted calls) room env u s.world r w')
    (hsteps : s.steps + u.cost ≤ limit) (hfuel : u.cost < fuel) :
    (∃ s', Ends (tailStep p limit tops fuel env tail) s (r.map .values) s' ∧ s'.Settled p limit ∧
      s'.world = w' ∧ s'.steps ≤ s.steps + u.cost) ∨
    (∃ depth n calls' env' code s1, room = depth + 1 ∧ calls' < calls ∧ n ≤ u.cost ∧
      Ends (tailStep p limit tops fuel env tail) s (.returned (.jump env' code)) s1 ∧
      s1.Settled p limit ∧ s1.steps + n ≤ s.steps + u.cost ∧
      code.Runs (p.counted calls') .machine depth n 0 env' s1.world r w') := by
  induction calls generalizing env tail s u fuel with
  | zero =>
    by_cases hsimple : tail.isSimple
    · exact .inl (simple_reaches h hs hrun hsimple hfuel)
    · cases tail with
      | call =>
        obtain ⟨_, -, _, _, -, -, hj⟩ := hrun
        exact hj.elim
      | enter =>
        obtain ⟨_, _, _, -, -, -, he⟩ := hrun
        exact he.elim
      | ret | data | closure | sel | prim => exact (hsimple rfl).elim
  | succ calls ih =>
    by_cases hsimple : tail.isSimple
    · exact .inl (simple_reaches h hs hrun hsimple hfuel)
    obtain ⟨fuel, rfl⟩ := Nat.exists_eq_add_of_lt (Nat.zero_lt_of_lt hfuel)
    cases tail with
    | call c =>
      obtain ⟨depth, rfl, vs, n, hv, rfl, block, hb, hl, hcode⟩ := hrun
      obtain ⟨s1, hj, hq⟩ := jump_complete h hs.knows hs.pending hb (by simpa using hv) hl
      refine .inr ⟨depth, n, calls, _, _, s1, rfl, Nat.lt_succ_self _, le_rfl, ?_,
        hs.follow hq.toFollows, by simp [hq.steps], hq.world ▸ hcode⟩
      rw [Nat.zero_add, tailStep]
      exact hj.bind (by simp)
    | enter f args =>
      obtain ⟨_, vs, _, hf, hv, rfl, k, stored, closure, u, rfl, hk, hl, hu, htail⟩ := hrun
      rw [Use.endsWithin_zero_iff] at hu
      simp only [Use.cost_closure] at hsteps hfuel ⊢
      obtain ⟨s1, hatom, hq⟩ := atom_complete h hs.knows hs.pending (by simpa using hf)
      obtain ⟨s2, hatoms, hq'⟩ := atoms_complete h hq.knows (hq.pending.trans hs.pending)
        (by simpa using hv)
      have hq := hq.trans hq'
      have hlt : s2.steps < limit := by
        rw [hq.steps]
        omega
      have hs2 := (hs.follow hq.toFollows).tick hlt
      have hgo {e : Ending Step} {s' : Machine}
          (hrest : Ends (tailStep p limit tops fuel (Env.bind [] (closure.stored ++ closure.params)
            (stored ++ vs)) closure.tail) { s2 with steps := s2.steps + 1 } e s') :
          Ends (tailStep p limit tops (0 + fuel + 1) env (.enter f args)) s e s' := by
        rw [Nat.zero_add, tailStep]
        exact hatom.bind (ends_ofFault.mpr ⟨closure, closure_eq_ok_iff.mpr hk,
          hatoms.bind (ends_enter.mpr ⟨hl, ends_tick.mpr ⟨hlt, hrest⟩⟩)⟩)
      have hsteps2 := hq.steps
      have hworld2 : Machine.world { s2 with steps := s2.steps + 1 } = s.world := hq.world
      rw [← hworld2] at htail
      obtain ⟨s', hrest, hs', hw, hle⟩ | ⟨depth, n, calls', env', code, s', rfl, hcalls, hn, hrest,
        hs', hle, hcode⟩ := ih hs2 htail (by simp only; omega) (show u.cost < fuel by omega)
      · exact .inl ⟨s', hgo hrest, hs', hw, by simp only at hle; omega⟩
      · exact .inr ⟨depth, n, calls', env', code, s', rfl, by omega, by omega, hgo hrest, hs',
          by simp only at hle; omega, hcode⟩
    | ret | data | closure | sel | prim => exact (hsimple rfl).elim

theorem tailLevel_complete {calls room : Nat} (hs : s.Settled p limit)
    (hrun : tail.Runs (p.counted calls) room env u s.world r w') (hsteps : s.steps + u.cost ≤ limit)
    (hbelow : ∀ {depth n calls' env' code s1}, room = depth + 1 → calls' < calls →
      s1.Settled p limit → s1.steps + n ≤ s.steps + u.cost →
        code.Runs (p.counted calls') .machine depth n 0 env' s1.world r w' →
          Reaches p limit (below (idleAtStart p) env' code) s1 r w' (s.steps + u.cost)) :
    Reaches p limit (tailLevel p limit below (idleAtStart p) env tail) s r w'
      (s.steps + u.cost) := by
  have hfuel : u.cost < limit + 1 := by omega
  obtain ⟨s', ht, hs', hw, hle⟩ | ⟨depth, n, calls', env', code, s1, hroom, hcalls, -, ht, hs1,
    hle, hrun'⟩ := tailStep_complete tops_completeAtRest hs hrun hsteps hfuel
  · exact ⟨s', ends_tailLevel_simple ht, hs', hw, hle⟩
  · obtain ⟨s', hrest, hs', hw, hle'⟩ := hbelow hroom hcalls hs1 hle hrun'
    exact ⟨s', ht.bind hrest, hs', hw, hle'⟩

/-- Code with fewer calls reaches what it may run to. -/
def ReachesBelow (p : Program) (limit calls : Nat) : Prop :=
  ∀ ⦃calls' depth n fuel env code s r w'⦄, calls' < calls → s.Settled p limit →
    code.Runs (p.counted calls') .machine depth n 0 env s.world r w' → s.steps + n ≤ limit →
      n ≤ fuel →
    Reaches p limit (runCode p limit (evalTail p limit depth (idleAtStart p))
      (topValues p (evalTail p limit depth (idleAtStart p - 1))) fuel env code) s r w' (s.steps + n)

theorem evalTail_complete {calls room : Nat} (hcode : ReachesBelow p limit calls)
    (hs : s.Settled p limit) (hrun : tail.Runs (p.counted calls) room env u s.world r w')
    (hsteps : s.steps + u.cost ≤ limit) :
    Reaches p limit (evalTail p limit room (idleAtStart p) env tail) s r w' (s.steps + u.cost) := by
  cases room with
  | zero => exact tailLevel_complete hs hrun hsteps fun h => nomatch h
  | succ room =>
    refine tailLevel_complete hs hrun hsteps fun {depth n calls' env' code s1} hroom hcalls hs1 hle
      h => ?_
    obtain rfl := Nat.succ.inj hroom
    obtain ⟨s', hs', hset, hw, hbound⟩ := hcode hcalls hs1 h (by omega)
      (show n ≤ limit + 1 by omega)
    exact ⟨s', hs', hset, hw, by omega⟩

theorem Reaches.of_ends {x y : Run (List Value)} {s1 : Machine} {bound : Nat}
    (hends : ∀ {s'}, Ends x s1 r s' → Ends y s r s') (h : Reaches p limit x s1 r w' bound) :
    Reaches p limit y s r w' bound := by
  obtain ⟨s', hx, rest⟩ := h
  exact ⟨s', hends hx, rest⟩

theorem Reaches.mono {x : Run (List Value)} {bound bound' : Nat}
    (h : Reaches p limit x s r w' bound) (hle : bound ≤ bound') :
    Reaches p limit x s r w' bound' := by
  obtain ⟨s', hx, hs', hw, hb⟩ := h
  exact ⟨s', hx, hs', hw, le_trans hb hle⟩

theorem goto_complete {calls : Nat} (hcode : ReachesBelow p limit calls) {depth fuel : Nat}
    (htops : CompleteAtRest p (topValues p (evalTail p limit depth (idleAtStart p - 1)))) {c : Call}
    (hs : s.Settled p limit) (hrun : c.Runs (p.counted calls) depth env u s.world r w')
    (hsteps : s.steps + u.cost ≤ limit) (hfuel : u.cost ≤ fuel) :
    Reaches p limit (do
      let (env, code) ← jump p (topValues p (evalTail p limit depth (idleAtStart p - 1))) env c
      runCode p limit (evalTail p limit depth (idleAtStart p))
        (topValues p (evalTail p limit depth (idleAtStart p - 1))) fuel env code) s r w'
      (s.steps + u.cost) := by
  obtain ⟨vs, n, hv, rfl, hj⟩ := hrun
  cases calls with
  | zero => exact hj.elim
  | succ calls =>
    obtain ⟨block, hb, hl, hblock⟩ := hj
    obtain ⟨s1, hjump, hq⟩ := jump_complete htops hs.knows hs.pending hb (by simpa using hv) hl
    rw [← hq.world] at hblock
    rw [← hq.steps, Use.cost_block] at hsteps
    exact .of_ends hjump.bind (hq.steps ▸ hcode (Nat.lt_succ_self _) (hs.follow hq.toFollows) hblock
      hsteps hfuel)

theorem runCode_complete {calls : Nat} (hcode : ReachesBelow p limit calls) {depth n fuel : Nat}
    {code : Code} (hs : s.Settled p limit)
    (hrun : code.Runs (p.counted calls) .machine depth n 0 env s.world r w')
    (hsteps : s.steps + n ≤ limit) (hfuel : n ≤ fuel) :
    Reaches p limit (runCode p limit (evalTail p limit depth (idleAtStart p))
      (topValues p (evalTail p limit depth (idleAtStart p - 1))) fuel env code) s r w'
      (s.steps + n) := by
  have htops : CompleteAtRest p (topValues p (evalTail p limit depth (idleAtStart p - 1))) := by
    cases depth <;> exact tops_completeAtRest
  induction fuel generalizing env s n code with
  | zero => exact absurd hrun.cost_pos (by omega)
  | succ fuel ih =>
    have hpos := hrun.cost_pos
    have hlt : s.steps < limit := by omega
    refine .of_ends (fun h => ends_tick.mpr ⟨hlt, h⟩) ?_
    have hs := hs.tick hlt
    have hatom {a : Atom} {v : Value} (ha : a.Has (p.counted calls).top env v) :
        ∃ s1, Ends (atom (topValues p (evalTail p limit depth (idleAtStart p - 1))) env a)
          { s with steps := s.steps + 1 } (.returned v) s1 ∧ s1.Settled p limit ∧
          s1.steps = s.steps + 1 ∧ s1.world = s.world := by
      obtain ⟨s1, hatom, hq⟩ := atom_complete htops hs.knows hs.pending (by simpa using ha)
      exact ⟨s1, hatom, hs.follow hq.toFollows, hq.steps, hq.world⟩
    cases code with
    | bind vars tail rest =>
      obtain ⟨-, u, ⟨hu, rfl, ht⟩ | ⟨vs, w1, left, hl, ht, hlen, hrest⟩⟩ := hrun
      · rw [Use.endsWithin_zero_iff] at hu
        obtain ⟨s', ht, hs', hw, hle⟩ := evalTail_complete hcode hs ht (by simp only; omega)
        exact ⟨s', ends_bind.mpr (.inr ⟨rfl, ht⟩), hs', hw, by simp only at hle; omega⟩
      · simp only [Rules.machine] at hl
        obtain ⟨s1, heval, hs1, rfl, hle⟩ := evalTail_complete hcode hs ht (by simp only; omega)
        simp only at hle
        refine .of_ends heval.bind ?_
        simp only [hlen, ne_eq, not_true_eq_false, if_false]
        rw [Use.rankAfter_zero] at hrest
        exact (ih hs1 hrest (by omega) (by omega)).mono (by omega)
    | assert a ctor rest =>
      obtain ⟨c, fields, left, ha, hc, hl, hrest⟩ := hrun
      simp only [Rules.machine] at hl
      obtain ⟨s1, hatom, hs1, hsteps1, hw⟩ := hatom ha
      refine .of_ends (fun h => hatom.bind (ends_assertCtor.mpr ⟨c, fields, rfl, hc, h⟩)) ?_
      rw [← hw] at hrest
      exact (ih hs1 hrest (by omega) (by omega)).mono (by omega)
    | done tail =>
      obtain ⟨u, hu, ht⟩ := hrun
      rw [Use.endsWithin_zero_iff] at hu
      obtain ⟨s', ht, hs', hw, hle⟩ | ⟨d, n', calls', env', code, s1, hd, hcalls, hn, ht, hs1,
        hle, hrun'⟩ := tailStep_complete htops hs ht (by simp only; omega)
          (show u.cost < limit + 1 by omega)
      · simp only at hle
        cases r with
        | returned vs => exact ⟨s', ht.bind (by simp), hs', hw, by omega⟩
        | halted => exact ⟨s', ends_bind.mpr (.inr ⟨rfl, ht⟩), hs', hw, by omega⟩
      · obtain rfl := Nat.succ.inj hd
        simp only at hle
        exact .of_ends ht.bind ((hcode hcalls hs1 hrun' (by omega) (by omega)).mono (by omega))
    | branch test yes no =>
      obtain ⟨b, u, ha, hu, hcall⟩ := hrun
      rw [Use.endsWithin_zero_iff] at hu
      obtain ⟨s1, hatom, hs1, hsteps1, hw⟩ := hatom ha
      rw [← hw] at hcall
      exact .of_ends (fun h => hatom.bind (ends_choose.mpr ⟨b, rfl, h⟩))
        ((goto_complete hcode htops hs1 hcall (by omega) (by omega)).mono (by omega))
    | switch a alts =>
      obtain ⟨c, fields, taken, u, ha, hsel, -, hu, hcall⟩ := hrun
      rw [Use.endsWithin_zero_iff] at hu
      obtain ⟨s1, hatom, hs1, hsteps1, hw⟩ := hatom ha
      rw [← hw] at hcall
      exact .of_ends (fun h => hatom.bind (ends_chooseArm.mpr ⟨c, fields, taken, rfl, hsel, h⟩))
        ((goto_complete hcode htops hs1 hcall (by omega) (by omega)).mono (by omega))

theorem reachesBelow (calls : Nat) : ReachesBelow p limit calls := by
  induction calls with
  | zero => exact fun _ _ _ _ _ _ _ _ _ h => nomatch h
  | succ calls ih =>
    intro calls' depth n fuel env code s r w' hlt hs hrun hsteps hfuel
    obtain hlt | rfl := Nat.lt_succ_iff_lt_or_eq.mp hlt
    · exact ih hlt hs hrun hsteps hfuel
    · exact runCode_complete ih hs hrun hsteps hfuel

theorem evalCode_complete {calls depth n : Nat} {code : Code} (hs : s.Settled p limit)
    (hrun : code.Runs (p.counted calls) .machine depth n 0 env s.world r w')
    (hsteps : s.steps + n ≤ limit) :
    Reaches p limit (evalCode p limit depth (idleAtStart p) env code) s r w' (s.steps + n) :=
  reachesBelow (calls + 1) (Nat.lt_succ_self _) hs hrun hsteps (by omega)

end Run

def Ending.outcome (e : Result) (w : World) : Outcome where
  output := w.output.toList
  termination :=
    match e with
    | .returned vs => .returned (Value.observeAll vs)
    | .halted => .halted

namespace Program

/-- Runs a block as `run` does, where so many calls may nest. -/
def runNested (p : Program) (depth : Nat) (b : BlockId) (args : List Word) (limit : Nat) :
    Except RunError Outcome :=
  match Run.runBlock p limit depth (idleAtStart p) b (args.map .word) {} with
  | .ok values s => .ok ⟨s.output.toList, .returned (Value.observeAll values)⟩
  | .error .halted s => .ok ⟨s.output.toList, .halted⟩
  | .error .diverged s => .ok ⟨s.output.toList, .diverged⟩
  | .error (.failed e) _ => .error e

variable {p : Program} {depth limit : Nat} {b : BlockId} {args : List Word} {o : Outcome}

theorem run_block (p : Program) (b : BlockId) (args : List Word) (limit : Nat) :
    p.run (.block b) args limit = p.runNested depthLimit b args limit := rfl

theorem runNested_eq_ok_iff_ends (ho : o.termination ≠ .diverged) :
    p.runNested depth b args limit = .ok o ↔
      ∃ e s', Run.Ends (runBlock p limit depth (idleAtStart p) b (args.map .word)) {} e s' ∧
        o = Ending.outcome e s'.world := by
  unfold runNested
  constructor
  · intro h
    split at h
    · rename_i vs s hrun
      exact ⟨.returned vs, s, hrun, (Except.ok.inj h).symm⟩
    · rename_i s hrun
      exact ⟨.halted, s, hrun, (Except.ok.inj h).symm⟩
    · exact absurd (Except.ok.inj h ▸ rfl) ho
    · cases h
  · rintro ⟨vs | _, s, hrun, rfl⟩
    · rw [show runBlock p limit depth (idleAtStart p) b (args.map .word) {} = .ok vs s from hrun]
      rfl
    · rw [show runBlock p limit depth (idleAtStart p) b (args.map .word)
        {} = .error .halted s from hrun]
      rfl

theorem settled_start : Settled p limit {} := ⟨by simp [Machine.Knows], rfl, Nat.zero_le _⟩

/-- A run of the machine that returns or halts is a run of the block with as much cost as the steps
that were allowed. -/
theorem runNested_eq_ok_iff (hpure : p.PureTops) (ho : o.termination ≠ .diverged) :
    p.runNested depth b args limit = .ok o ↔
      ∃ e w', p.Runs .machine depth limit b (args.map .word) {} e w' ∧ o = Ending.outcome e w' := by
  rw [runNested_eq_ok_iff_ends ho]
  constructor
  · rintro ⟨e, s', hrun, rfl⟩
    obtain ⟨block, hb, hrun⟩ := ends_ofFault.mp hrun
    obtain ⟨hl, hrun⟩ := ends_enter.mp hrun
    obtain ⟨hs', calls, n, hn, hcode⟩ := evalCode_sound hpure settled_start hrun
    have hle : n ≤ limit := by
      have := hs'.steps
      simp only at hn
      omega
    exact ⟨e, s'.world, ⟨calls + 1, _, block_eq_ok_iff.mp hb, hl, hcode.more hle⟩, rfl⟩
  · rintro ⟨e, w', ⟨calls, hrun⟩, rfl⟩
    cases calls with
    | zero => exact hrun.elim
    | succ calls =>
      obtain ⟨block, hb, hl, hcode⟩ := hrun
      obtain ⟨s', hs', -, rfl, -⟩ := evalCode_complete settled_start hcode
        (show 0 + limit ≤ limit by omega)
      exact ⟨e, s', ends_ofFault.mpr ⟨block, block_eq_ok_iff.mpr hb, ends_enter.mpr ⟨hl, hs'⟩⟩, rfl⟩

end Program

end MonadicIR
