import MonadicIR.Proofs.SharedArguments

namespace MonadicIR

/-- The second call is one of the copy, with the further arguments. -/
structure Call.PassesOn (C : BlockId → BlockId → Prop) (xs : List Temp) (c c' : Call) : Prop where
  target : C c.target c'.target
  args : c'.args = c.args ++ xs.map .temp

/-- The second code hands on what the first one returns. -/
inductive Code.PassesOn (h : Handoff) (C : BlockId → BlockId → Prop) (xs : List Temp) :
    Code → Code → Prop where
  | bind {vars t rest rest'} (hvars : ∀ x ∈ xs, x ∉ vars) (hrest : PassesOn h C xs rest rest') :
      PassesOn h C xs (.bind vars t rest) (.bind vars t rest')
  | assert {a ctor rest rest'} (hrest : PassesOn h C xs rest rest') :
      PassesOn h C xs (.assert a ctor rest) (.assert a ctor rest')
  | jump {c c'} (hc : Call.PassesOn C xs c c') : PassesOn h C xs (.jump c) (.jump c')
  | stop {t} (ht : Tail.blackholes t = true) : PassesOn h C xs (.done t) (.done t)
  | value {t v} (hv : Temp.isWildcard v = false) (hnew : v ∉ xs) :
      PassesOn h C xs (.done t) (.bind [v] t (.done (h.tail xs v)))
  | branch {a yes yes' no no'} (hyes : Call.PassesOn C xs yes yes')
    (hno : Call.PassesOn C xs no no') :
      PassesOn h C xs (.branch a yes no) (.branch a yes' no')
  | switch {a alts alts'} (halts : ∀ ctor c, Alts.select alts ctor = some c →
      ∃ c', Alts.select alts' ctor = some c' ∧ c.PassesOn C xs c') :
      PassesOn h C xs (.switch a alts) (.switch a alts')

/-- The copy takes the arguments of the block and the further ones, and hands on what code returns
that does the same as the block. -/
structure Block.PassesOn (h : Handoff) (C : BlockId → BlockId → Prop) (block copy : Block) :
    Prop where
  length : copy.params.length = block.params.length + h.extras
  runs : ∃ xs code, Code.PassesOn h C xs code copy.code ∧ ∀ vs given : List Value,
    vs.length = block.params.length → given.length = h.extras →
      Code.StandsFor (Env.bind [] block.params vs) (Env.bind [] copy.params (vs ++ given))
        block.code code ∧
      xs.map (Env.bind [] copy.params (vs ++ given)).lookup = given.map some

section Imp

variable {h : Handoff} {C C' : BlockId → BlockId → Prop} (hC : ∀ ⦃b d⦄, C b d → C' b d)
  {xs : List Temp}
include hC

theorem Call.PassesOn.imp {c c' : Call} (hc : c.PassesOn C xs c') : c.PassesOn C' xs c' :=
  ⟨hC hc.target, hc.args⟩

theorem Code.PassesOn.imp {code code' : Code} (hcode : code.PassesOn h C xs code') :
    code.PassesOn h C' xs code' := by
  induction hcode with
  | bind hvars _ ih => exact .bind hvars ih
  | assert _ ih => exact .assert ih
  | jump hc => exact .jump (hc.imp hC)
  | stop ht => exact .stop ht
  | value hv hnew => exact .value hv hnew
  | branch hyes hno => exact .branch (hyes.imp hC) (hno.imp hC)
  | switch halts =>
    refine .switch fun ctor c hsel => ?_
    obtain ⟨c', hsel', hc⟩ := halts ctor c hsel
    exact ⟨c', hsel', hc.imp hC⟩

theorem Block.PassesOn.imp {block copy : Block} (hcopy : block.PassesOn h C copy) :
    block.PassesOn h C' copy := by
  obtain ⟨xs, code, hcode, hruns⟩ := hcopy.runs
  exact ⟨hcopy.length, xs, code, hcode.imp hC, hruns⟩

end Imp

def Program.PassesOn (p : Program) (h : Handoff) (C : BlockId → BlockId → Prop) : Prop :=
  ∀ ⦃b d⦄, C b d → ∃ block copy, p.block b = .ok block ∧ p.block d = .ok copy ∧
    block.PassesOn h C copy

namespace Run

variable {p : Program} {limit n : Nat} {h : Handoff} {C : BlockId → BlockId → Prop}

theorem atoms_append (tops : TopId → Run (List Value)) (env : Env) (as bs : List Atom) :
    atoms tops env (as ++ bs) = do
      let vs ← atoms tops env as
      let ws ← atoms tops env bs
      return vs ++ ws := by
  induction as with
  | nil => simp [atoms]
  | cons a as ih => simp [atoms, ih]

theorem atoms_temps (tops : TopId → Run (List Value)) {env : Env} {xs : List Temp} {vs : List Value}
    (h : xs.map env.lookup = vs.map some) : atoms tops env (xs.map .temp) = pure vs := by
  induction xs generalizing vs with
  | nil =>
    obtain rfl := List.map_eq_nil_iff.mp h.symm
    rfl
  | cons x xs ih =>
    cases vs with
    | nil => cases h
    | cons v vs =>
      obtain ⟨hv, hvs⟩ := List.cons.inj h
      simp [atoms, ih hvs, atom_eq_pure tops (a := .temp x) hv]

theorem prim_blackholes {q : Prim} (hq : q.blackholes = true) (args : List Value) :
    Refines limit n n (fun _ _ : List Value => False) (prim q args) (prim q args) := by
  refine fun s _ _ => ?_
  cases hrun : prim q args s with
  | ok a s' =>
    obtain ⟨w, hw, -⟩ := (ends_prim (e := .returned a)).mp hrun
    cases Prim.effect_of_blackholes hq hw
  | error e s' => exact .stopped

theorem tailStep_blackholes {tops tops' : TopId → Run (List Value)}
    (htops : TopsImprove limit tops tops')
    {fuel : Nat} {env : Env} {t : Tail} (ht : t.blackholes = true) :
    Refines limit n n (fun _ _ => False) (tailStep p limit tops (fuel + 1) env t)
      (tailStep p limit tops' (fuel + 1) env t) := by
  cases t with
  | prim q args =>
    unfold tailStep
    refine .andThen (atoms_improve_self htops env args n) fun vs => ?_
    exact .bind (prim_blackholes ht vs) fun _ _ => False.elim
  | ret | call | enter | data | closure | sel => cases ht

section Levels

variable (p limit) (depth idle : Nat)

def runCallee : Nat → Env → Code → Run (List Value) :=
  runCode p limit (evalTail p limit depth (idle + 1)) (topValues p (evalTail p limit depth idle))

def runCaller : Nat → Env → Code → Run (List Value) :=
  runCode p limit (evalTail p limit (depth + 1) (idle + 1))
    (topValues p (evalTail p limit (depth + 1) idle))

end Levels

theorem runCallee_refines {depth idle fuel fuel' : Nat} (hfuel : limit < n + fuel)
    (hfuel' : limit < n + fuel') {env env' : Env} {code code' : Code}
    (hcode : Code.StandsFor env env' code code') :
    Refines limit n n Eq (runCallee p limit depth idle fuel env code)
      (runCallee p limit depth idle fuel' env' code') :=
  have hext := Program.Extends.refl p
  runCode_refines hext (topValues_evalTail_improve hext le_rfl idle)
    (evalTail_improves hext le_rfl (idle + 1)) hfuel hfuel' hcode

theorem runCaller_refines {depth idle fuel fuel' : Nat} (hfuel : limit < n + fuel)
    (hfuel' : limit < n + fuel') {env env' : Env} {code code' : Code}
    (hcode : Code.StandsFor env env' code code') :
    Refines limit n n Eq (runCaller p limit depth idle fuel env code)
      (runCaller p limit depth idle fuel' env' code') :=
  have hext := Program.Extends.refl p
  runCode_refines hext (topValues_evalTail_improve hext le_rfl idle)
    (evalTail_improves hext le_rfl (idle + 1)) hfuel hfuel' hcode

/-- What is done with returned values, wherever they are handed over with the given ones. -/
structure HandsOver (p : Program) (limit depth idle : Nat) (h : Handoff) (given : List Value)
    (finish : List Value → Run (List Value)) : Prop where
  steady : ∀ ⦃n⦄, 0 < n → ∀ vs, Refines limit n n Eq (finish vs) (finish vs)
  tail : ∀ ⦃n fuel : Nat⦄ ⦃env : Env⦄ ⦃xs : List Temp⦄ ⦃v : Temp⦄, 0 < n → limit < n + fuel →
    xs.map env.lookup = given.map some → v.isWildcard = false → v ∉ xs → ∀ a : Value,
      Refines limit n n Eq (finish [a])
        (runCaller p limit depth idle fuel (env.bind [v] [a]) (.done (h.tail xs v)))
  single : ∀ ⦃n : Nat⦄ ⦃vs : List Value⦄, vs.length ≠ 1 → ∀ y, Refines limit n n Eq (finish vs) y

variable {depth idle : Nat} {given : List Value} {finish : List Value → Run (List Value)}

/-- The environments after a jump to a block and to its copy. -/
def Passing (h : Handoff) (C : BlockId → BlockId → Prop) (given : List Value) (x y : Env × Code) :
    Prop :=
  ∃ xs code, Code.StandsFor x.1 y.1 x.2 code ∧ Code.PassesOn h C xs code y.2 ∧
    xs.map y.1.lookup = given.map some

theorem jump_passesOn (hC : p.PassesOn h C) (hgiven : given.length = h.extras)
    {tops tops' : TopId → Run (List Value)} (htops : TopsImprove limit tops tops') {env : Env}
    {xs : List Temp} (hxs : xs.map env.lookup = given.map some) {c c' : Call}
    (hc : c.PassesOn C xs c') :
    Refines limit n n (Passing h C given) (jump p tops env c) (jump p tops' env c') := by
  obtain ⟨block, copy, hblock, hcopy, hpasses⟩ := hC hc.target
  obtain ⟨ys, code, hcode, hruns⟩ := hpasses.runs
  unfold jump
  rw [hblock, hcopy, hc.args, atoms_append, atoms_temps tops' hxs]
  simp only [ofFault, pure_bind, bind_assoc]
  refine .andThen (atoms_improve_self htops env c.args n) fun vs => ?_
  unfold enter
  by_cases hlen : block.params.length = vs.length
  · have hlen' : copy.params.length = (vs ++ given).length := by
      rw [hpasses.length, List.length_append, hlen, hgiven]
    simp only [if_pos hlen, if_pos hlen', pure_bind]
    obtain ⟨hstands, hlookup⟩ := hruns vs given hlen.symm hgiven
    exact .pure ⟨ys, code, hstands, hcode, hlookup⟩
  · simp only [if_neg hlen]
    exact .fail

theorem runCode_passesOn (hC : p.PassesOn h C) (hgiven : given.length = h.extras)
    (hfinish : HandsOver p limit depth idle h given finish) {fuel fuel' : Nat}
    (hfuel : limit < n + fuel) (hfuel' : limit < n + fuel') {env : Env} {xs : List Temp}
    (hxs : xs.map env.lookup = given.map some) {code code' : Code}
    (hcode : Code.PassesOn h C xs code code') :
    Refines limit n n Eq (runCallee p limit depth idle fuel env code >>= finish)
      (runCaller p limit depth idle fuel' env code') := by
  have hext := Program.Extends.refl p
  have htops : TopsImprove limit (topValues p (evalTail p limit depth idle))
      (topValues p (evalTail p limit (depth + 1) idle)) :=
    topValues_evalTail_improve hext (Nat.le_succ depth) idle
  have heval : TailsImprove limit (evalTail p limit depth (idle + 1))
      (evalTail p limit (depth + 1) (idle + 1)) := evalTail_improves hext (Nat.le_succ depth)
        (idle + 1)
  induction fuel generalizing fuel' n env xs code code' with
  | zero => exact fun s hn hlimit => by omega
  | succ fuel ih =>
    cases fuel' with
    | zero => exact fun s hn hlimit => by omega
    | succ fuel' =>
      have hgo {env : Env} {xs : List Temp} (hxs : xs.map env.lookup = given.map some) {code code' :
        Code}
          (hcode : Code.PassesOn h C xs code code') : Refines limit (n + 1) n Eq
            (runCallee p limit depth idle fuel env code >>= finish)
            (runCaller p limit depth idle fuel' env code') :=
        (ih (by omega) (by omega) hxs hcode).weaken (Nat.le_succ n)
      -- A jump leads to the body of a block, which the copy has with other variables.
      have hjump {c c' : Call} (hc : c.PassesOn C xs c') : Refines limit (n + 1) n Eq
          (do
            let next ← jump p (topValues p (evalTail p limit depth idle)) env c
            runCallee p limit depth idle fuel next.1 next.2 >>= finish)
          (do
            let next ← jump p (topValues p (evalTail p limit (depth + 1) idle)) env c'
            runCaller p limit depth idle fuel' next.1 next.2) := by
        refine .bind (jump_passesOn hC hgiven htops hxs hc) fun x y hxy => ?_
        obtain ⟨ys, code, hstands, hcode, hys⟩ := hxy
        have hsame : Refines limit (n + 1) (n + 1) Eq (runCallee p limit depth idle fuel x.1 x.2)
            (runCallee p limit depth idle fuel y.1 code) := runCallee_refines (by omega)
              (by omega) hstands
        refine (hsame.andThen fun vs => ?_).trans (hgo hys hcode)
        exact (hfinish.steady n.succ_pos vs).weaken (Nat.le_succ n)
      unfold runCallee runCaller runCode
      simp only [bind_assoc]
      refine .bind .tick fun _ _ _ => ?_
      cases hcode with
      | bind hvars hrest =>
        simp only [bind_assoc]
        refine .andThen (heval (Tail.paired_self env _) (n + 1)) fun vs => ?_
        split
        case isTrue => exact .fail
        case isFalse hvs =>
          refine hgo ?_ hrest
          exact (List.map_congr_left fun x hx => Env.lookup_bind_of_not_mem (hvars x hx)).trans hxs
      | @assert a ctor rest rest' hrest =>
        simp only [bind_assoc]
        refine .andThen (atom_improves htops (.refl env a) (n + 1)) fun v => ?_
        exact .andThen (assertCtor_improves _ v (n + 1)) fun _ => hgo hxs hrest
      | jump hc =>
        simp only [Code.jump, tailStep, bind_assoc, pure_bind]
        exact hjump hc
      | stop ht =>
        simp only [bind_assoc]
        exact .bind (tailStep_blackholes htops ht) fun _ _ => False.elim
      | @value t v hv hnew =>
        -- The callee is left at its own level; what it jumps to runs there in both cases.
        refine .andThen (m := n + 1) ?_ fun vs => ?_
        · refine .andThen (m := n + 1)
            (tailStep_refines hext htops (by omega) (by omega) (t.paired_self env)) fun step => ?_
          cases step with
          | values vs => exact .pure rfl
          | jump env code => exact runCallee_refines (by omega) (by omega) (.refl env code)
        · split
          case isTrue hvs => exact (hfinish.single hvs _).weaken (Nat.le_succ n)
          case isFalse hvs =>
            obtain ⟨a, rfl⟩ := List.length_eq_one_iff.mp (Decidable.not_not.mp hvs)
            exact (hfinish.tail n.succ_pos (by omega) hxs hv hnew a).weaken (Nat.le_succ n)
      | @branch a _ _ _ _ hyes hno =>
        simp only [bind_assoc]
        refine .andThen (atom_improves htops (.refl env a) (n + 1)) fun v => ?_
        exact .bind (choose_refines hyes hno v) fun _ _ => hjump
      | @switch a _ _ halts =>
        simp only [bind_assoc]
        refine .andThen (atom_improves htops (.refl env a) (n + 1)) fun v => ?_
        exact .bind (chooseArm_refines halts v) fun _ _ => hjump

end Run

theorem Atom.StandsFor.temp {env env' : Env} {t t' : Temp} {v : Value} (h : env.lookup t = some v)
    (h' : env'.lookup t' = some v) : StandsFor env env' (.temp t) (.temp t') := by
  intro w hw
  obtain rfl := Option.mem_unique h hw
  exact h'

theorem Atom.StandsFor.temps {env env' : Env} {xs xs' : List Temp} {vs : List Value}
    (h : xs.map env.lookup = vs.map some) (h' : xs'.map env'.lookup = vs.map some) :
    List.Forall₂ (StandsFor env env') (xs.map .temp) (xs'.map .temp) := by
  induction vs generalizing xs xs' with
  | nil =>
    rw [List.map_eq_nil_iff.mp h, List.map_eq_nil_iff.mp h']
    exact .nil
  | cons v vs ih =>
    obtain ⟨x, xs, rfl, hx, h⟩ := List.map_eq_cons_iff.mp h
    obtain ⟨x', xs', rfl, hx', h'⟩ := List.map_eq_cons_iff.mp h'
    exact .cons (.temp hx hx') (ih h h')

theorem Handoff.paired_tail (h : Handoff) {env env' : Env} {xs xs' : List Temp} {v v' : Temp}
    {a : Value}
    {given : List Value} (hgiven : given.length = h.extras)
    (hxs : xs.map env.lookup = given.map some)
    (hxs' : xs'.map env'.lookup = given.map some) (hv : env.lookup v = some a)
    (hv' : env'.lookup v' = some a) :
    (h.tail xs v).Paired (Atom.StandsFor env env') (h.tail xs' v') := by
  cases h with
  | continuation =>
    obtain ⟨g, rfl⟩ := List.length_eq_one_iff.mp hgiven
    obtain ⟨x, _, rfl, hx, -⟩ := List.map_eq_cons_iff.mp hxs
    obtain ⟨x', _, rfl, hx', -⟩ := List.map_eq_cons_iff.mp hxs'
    exact .enter (.temp hx hx') (.cons (.temp hv hv') .nil)
  | enter arity => exact .enter (.temp hv hv') (Atom.StandsFor.temps hxs hxs')

theorem Env.bind_handed {env : Env} {xs : List Temp} {v : Temp} {given : List Value}
    (hxs : xs.map env.lookup = given.map some) (hv : v.isWildcard = false) (hnew : v ∉ xs)
    (a : Value) :
    (env.bind [v] [a]).lookup v = some a ∧ xs.map (env.bind [v] [a]).lookup = given.map some := by
  refine ⟨?_, (List.map_congr_left fun x hx => Env.lookup_bind_of_not_mem ?_).trans hxs⟩
  · rw [Env.bind_cons]
    exact Env.lookup_put.trans (if_pos ⟨rfl, hv⟩)
  · rintro hxv
    exact hnew (List.mem_singleton.mp hxv ▸ hx)

namespace Run

variable {p : Program} {limit : Nat} {h : Handoff} {C : BlockId → BlockId → Prop}

/-- What a caller does that binds the result of a call and hands it over. -/
def finishCall (p : Program) (limit depth idle : Nat) (h : Handoff) (env : Env) (t : Tail)
    (xs : List Temp) (v : Temp) (vs : List Value) : Run (List Value) := do
  if vs.length ≠ [v].length then fail (.arity (.binding t) [v].length vs.length)
  runCaller p limit depth idle limit (env.bind [v] vs) (.done (h.tail xs v))

theorem finishCall_handsOver {depth idle : Nat} {env : Env} {t : Tail} {xs : List Temp} {v : Temp}
    {given : List Value} (hgiven : given.length = h.extras)
    (hxs : xs.map env.lookup = given.map some) (hv : v.isWildcard = false) (hnew : v ∉ xs) :
    HandsOver p limit depth idle h given (finishCall p limit depth idle h env t xs v) where
  steady n hn vs := by
    unfold finishCall
    split
    · exact .fail
    · exact runCaller_refines (by omega) (by omega) (.refl _ _)
  tail n fuel env' xs' v' hn hfuel hxs' hv' hnew' a := by
    obtain ⟨ha, hxs⟩ := Env.bind_handed hxs hv hnew a
    obtain ⟨ha', hxs'⟩ := Env.bind_handed hxs' hv' hnew' a
    exact runCaller_refines (by omega) hfuel (.done (h.paired_tail hgiven hxs hxs' ha ha'))
  single n vs hvs y := by
    simp only [finishCall, List.length_singleton, if_pos hvs]
    exact .fail

theorem evalTail_call (p : Program) (limit depth idle : Nat) (env : Env) (c : Call) :
    evalTail p limit (depth + 1) (idle + 1) env (.call c) =
      jump p (topValues p (evalTail p limit (depth + 1) idle)) env c >>= fun next =>
        runCallee p limit depth idle (limit + 1) next.1 next.2 := by
  change (tailStep p limit (topValues p (evalTail p limit (depth + 1) idle))
    (limit + 1) env _ >>= _) = _
  simp only [tailStep, bind_assoc, pure_bind]
  rfl

/-- A call of the copy does as well as a caller that binds the result and hands it over. -/
theorem evalCode_handoff (hC : p.PassesOn h C) {b d : BlockId} (hd : C b d) {xs : List Temp}
    {given : List Value} {env : Env} (hgiven : given.length = h.extras)
    (hxs : xs.map env.lookup = given.map some) {v : Temp} (hv : v.isWildcard = false)
    (hnew : v ∉ xs) (depth idle : Nat) (args : List Atom) :
    Improves limit
      (evalCode p limit depth (idle + 1) env (.bind [v] (.call ⟨b, args⟩) (.done (h.tail xs v))))
      (evalCode p limit depth (idle + 1) env (.jump ⟨d, args ++ xs.map .temp⟩)) := by
  intro n
  have hcall : Call.PassesOn C xs ⟨b, args⟩ ⟨d, args ++ xs.map .temp⟩ := ⟨hd, rfl⟩
  have htops : TopsImprove limit (topValues p (evalTail p limit depth idle))
      (topValues p (evalTail p limit depth idle)) :=
    topValues_evalTail_improve (.refl p) (Nat.le_refl depth) idle
  have hjump := jump_passesOn hC hgiven htops hxs hcall (n := n + 1)
  unfold evalCode runCode Code.jump
  refine .bind .tick fun _ _ _ => ?_
  cases depth with
  | zero =>
    simp only [evalTail, tailLevel, tailStep, bind_assoc, pure_bind]
    exact .bind hjump fun _ _ _ => .fail
  | succ depth =>
    simp only [evalTail_call, tailStep, bind_assoc, pure_bind]
    refine .bind hjump fun x y hxy => ?_
    obtain ⟨ys, code, hstands, hcode, hys⟩ := hxy
    have hfinish : HandsOver p limit depth idle h given
      (finishCall p limit depth idle h env (.call ⟨b, args⟩) xs v) :=
      finishCall_handsOver hgiven hxs hv hnew
    have hsame : Refines limit (n + 1) (n + 1) Eq (runCallee p limit depth idle (limit + 1) x.1 x.2)
        (runCallee p limit depth idle (limit + 1) y.1 code) :=
      runCallee_refines (by omega) (by omega) hstands
    refine (hsame.andThen fun vs => ?_).trans
      ((runCode_passesOn hC hgiven hfinish (by omega) (by omega) hys hcode).weaken (Nat.le_succ n))
    exact (hfinish.steady n.succ_pos vs).weaken (Nat.le_succ n)

end Run

end MonadicIR
