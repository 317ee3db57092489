import MonadicIR.Proofs.Renaming
import MonadicIR.Proofs.Tracking

namespace MonadicIR

namespace Program

/-- All that the first program defines has the same body in the second. -/
structure Extends (p q : Program) : Prop where
  block : ∀ ⦃b x⦄, p.block b = .ok x →
    ∃ y, q.block b = .ok y ∧ y.params = x.params ∧ y.code = x.code
  closure : ∀ ⦃k x⦄, p.closure k = .ok x →
    ∃ y, q.closure k = .ok y ∧ y.stored = x.stored ∧ y.params = x.params ∧ y.tail = x.tail
  top : ∀ ⦃t x⦄, p.top t = .ok x → ∃ y, q.top t = .ok y ∧ y.lhs = x.lhs ∧ y.tail = x.tail

theorem Extends.refl (p : Program) : p.Extends p where
  block _ x h := ⟨x, h, rfl, rfl⟩
  closure _ x h := ⟨x, h, rfl, rfl, rfl⟩
  top _ x h := ⟨x, h, rfl, rfl⟩

end Program

/-- The second atom has in the second environment the value that the first one has in the first. -/
def Atom.StandsFor (env env' : Env) : Atom → Atom → Prop
  | .temp t, a => ∀ v, env.lookup t = some v → a.Has (fun _ _ => False) env' v
  | .word w, a => a = .word w
  | .flag b, a => a = .flag b
  | .top r, a => a = .top r
  | .external name, a => a = .external name

/-- Calls of the same block, whose arguments are related. -/
structure Call.Paired (R : Atom → Atom → Prop) (c c' : Call) : Prop where
  target : c'.target = c.target
  args : List.Forall₂ R c.args c'.args

/-- Tails of the same form, whose atoms are related. -/
inductive Tail.Paired (R : Atom → Atom → Prop) : Tail → Tail → Prop where
  | ret {as as'} (h : List.Forall₂ R as as') : Paired R (.ret as) (.ret as')
  | call {c c'} (h : Call.Paired R c c') : Paired R (.call c) (.call c')
  | enter {f f' as as'} (hf : R f f') (h : List.Forall₂ R as as') :
      Paired R (.enter f as) (.enter f' as')
  | data {c as as'} (h : List.Forall₂ R as as') : Paired R (.data c as) (.data c as')
  | closure {k as as'} (h : List.Forall₂ R as as') : Paired R (.closure k as) (.closure k as')
  | sel {c i a a'} (h : R a a') : Paired R (.sel c i a) (.sel c i a')
  | prim {q as as'} (h : List.Forall₂ R as as') : Paired R (.prim q as) (.prim q as')

section Carries

variable {s : Subst} {env env' : Env} (h : s.Carries (fun _ _ => False) env env')
include h

theorem Subst.Carries.standsFor (a : Atom) : a.StandsFor env env' (s.apply a) := by
  cases a with
  | temp t => exact fun v hv => h hv
  | word | flag | top | external => rfl

theorem Subst.Carries.standForAll (as : List Atom) :
    List.Forall₂ (Atom.StandsFor env env') as (as.map s.apply) :=
  List.forall₂_map_right_iff.mpr (List.forall₂_same.mpr fun a _ => h.standsFor a)

theorem Subst.Carries.pairedCall (c : Call) : c.Paired (Atom.StandsFor env env') (c.apply s) :=
  ⟨rfl, h.standForAll c.args⟩

theorem Subst.Carries.paired (t : Tail) : t.Paired (Atom.StandsFor env env') (t.apply s) := by
  cases t with
  | ret as => exact .ret (h.standForAll as)
  | call c => exact .call (h.pairedCall c)
  | enter f as => exact .enter (h.standsFor f) (h.standForAll as)
  | data c as => exact .data (h.standForAll as)
  | closure k as => exact .closure (h.standForAll as)
  | sel c i a => exact .sel (h.standsFor a)
  | prim q as => exact .prim (h.standForAll as)

end Carries

theorem Atom.StandsFor.refl (env : Env) (a : Atom) : a.StandsFor env env a := by
  simpa using (Env.Sub.refl env).carries.standsFor a

theorem Tail.paired_self (env : Env) (t : Tail) : t.Paired (Atom.StandsFor env env) t := by
  simpa using (Env.Sub.refl env).carries.paired t

/-- The second code does in the second environment what the first one does in the first. -/
inductive Code.StandsFor : Env → Env → Code → Code → Prop where
  | done {env env' t t'} (ht : Tail.Paired (Atom.StandsFor env env') t t') :
      StandsFor env env' (.done t) (.done t')
  | bind {env env' vars vars' t t' rest rest'} (ht : Tail.Paired (Atom.StandsFor env env') t t')
      (hlen : vars'.length = vars.length) (hrest : ∀ vs : List Value, vs.length = vars.length →
        StandsFor (env.bind vars vs) (env'.bind vars' vs) rest rest') :
      StandsFor env env' (.bind vars t rest) (.bind vars' t' rest')
  | assert {env env' a a' ctor rest rest'} (ha : Atom.StandsFor env env' a a')
      (hrest : StandsFor env env' rest rest') :
      StandsFor env env' (.assert a ctor rest) (.assert a' ctor rest')
  | branch {env env' a a' yes yes' no no'} (ha : Atom.StandsFor env env' a a')
      (hyes : Call.Paired (Atom.StandsFor env env') yes yes')
      (hno : Call.Paired (Atom.StandsFor env env') no no') :
      StandsFor env env' (.branch a yes no) (.branch a' yes' no')
  | switch {env env' a a' alts alts'} (ha : Atom.StandsFor env env' a a')
      (halts : ∀ ctor c, Alts.select alts ctor = some c → ∃ c', Alts.select alts' ctor = some c' ∧
        c.Paired (Atom.StandsFor env env') c') :
      StandsFor env env' (.switch a alts) (.switch a' alts')

namespace Code.StandsFor

theorem refl (env : Env) (code : Code) : StandsFor env env code code := by
  have hcall (env : Env) (c : Call) : c.Paired (Atom.StandsFor env env) c := by
    simpa using (Env.Sub.refl env).carries.pairedCall c
  induction code generalizing env with
  | done t => exact .done (t.paired_self env)
  | bind vars t rest ih => exact .bind (t.paired_self env) rfl fun vs _ => ih _
  | assert a ctor rest ih => exact .assert (.refl env a) (ih env)
  | branch a yes no => exact .branch (.refl env a) (hcall env yes) (hcall env no)
  | switch a alts => exact .switch (.refl env a) fun _ c hc => ⟨c, hc, hcall env c⟩

/-- A copy with fresh variables does the same, where what stands for the free variables has their
values. -/
theorem copyFresh {s : Subst} {env env' : Env} (h : s.Carries (fun _ _ => False) env env')
    {m : Temps} (hpos : 0 < m.size) (hbelow : env'.Below m.size) (code : Code) :
    StandsFor env env' code (code.copyFresh m s).1 := by
  induction code generalizing env env' m s with
  | done t => exact .done (h.paired t)
  | bind vars t rest ih =>
    have hfresh := m.freshLikeAll_fresh vars
    refine .bind (h.paired t) hfresh.length_eq fun vs hlen => ?_
    obtain ⟨hs', hbelow'⟩ := hfresh.carries hpos h hbelow hlen
    exact ih hs' (lt_of_lt_of_le hpos hfresh.le) hbelow'
  | assert a ctor rest ih => exact .assert (h.standsFor a) (ih h hpos hbelow)
  | branch a yes no => exact .branch (h.standsFor a) (h.pairedCall yes) (h.pairedCall no)
  | switch a alts =>
    refine .switch (h.standsFor a) fun ctor c hc => ⟨c.apply s, ?_, h.pairedCall c⟩
    rw [Alts.select_mapCalls, hc]
    rfl

end Code.StandsFor

namespace Run

variable {α β γ δ : Type} {limit n m k : Nat}

/-- The first run failed, or both ended alike. Where they can go on, at least `m` steps have been
taken and not more than there may be. -/
inductive Outdone (limit m : Nat) (Q : α → β → Prop) :
    EStateM.Result Stop Machine α → EStateM.Result Stop Machine β → Prop where
  | ok {a b s} (hm : m ≤ s.steps) (hlimit : s.steps ≤ limit) (h : Q a b) :
      Outdone limit m Q (.ok a s) (.ok b s)
  | failed {e s r} : Outdone limit m Q (.error (.failed e) s) r
  | stopped {e s} : Outdone limit m Q (.error e s) (.error e s)

/-- After `n` steps the second run does as well as the first, and related values are returned after
`m` steps. -/
def Refines (limit n m : Nat) (Q : α → β → Prop) (x : Run α) (y : Run β) : Prop :=
  ∀ ⦃s⦄, n ≤ s.steps → s.steps ≤ limit → Outdone limit m Q (x s) (y s)

namespace Refines

variable {Q : α → β → Prop} {T : γ → δ → Prop} {x : Run α} {y : Run β}

protected theorem pure {a : α} {b : β} (h : Q a b) : Refines limit n n Q (pure a) (pure b) :=
  fun _ hn hlimit => .ok hn hlimit h

theorem fail {e : RunError} : Refines limit n m Q (fail e) y := fun _ _ _ => .failed

theorem stop {e : Stop} : Refines limit n m Q (throw e) (throw e) := fun _ _ _ => .stopped

protected theorem bind {f : α → Run γ} {g : β → Run δ} (hx : Refines limit n m Q x y)
    (hf : ∀ a b, Q a b → Refines limit m k T (f a) (g b)) :
    Refines limit n k T (x >>= f) (y >>= g) := by
  intro s hn hlimit
  have hs := hx hn hlimit
  simp only [bind, EStateM.bind]
  generalize x s = r at hs
  generalize y s = r' at hs
  cases hs with
  | ok hm hlimit h => exact hf _ _ h hm hlimit
  | failed => exact .failed
  | stopped => exact .stopped

theorem imp {R : α → β → Prop} (h : Refines limit n m Q x y) (hQ : ∀ a b, Q a b → R a b) :
    Refines limit n m R x y := by
  intro s hn hlimit
  have hs := h hn hlimit
  generalize x s = r at hs
  generalize y s = r' at hs
  cases hs with
  | ok hm hlimit h => exact .ok hm hlimit (hQ _ _ h)
  | failed => exact .failed
  | stopped => exact .stopped

theorem weaken (h : Refines limit n m Q x y) (hk : k ≤ m) : Refines limit n k Q x y := by
  intro s hn hlimit
  have hs := h hn hlimit
  generalize x s = r at hs
  generalize y s = r' at hs
  cases hs with
  | ok hm hlimit h => exact .ok (le_trans hk hm) hlimit h
  | failed => exact .failed
  | stopped => exact .stopped

theorem andThen {x y : Run α} {f : α → Run γ} {g : α → Run δ} (hx : Refines limit n m Eq x y)
    (hf : ∀ a, Refines limit m k T (f a) (g a)) : Refines limit n k T (x >>= f) (y >>= g) :=
  hx.bind fun a _ hab => hab ▸ hf a

theorem trans {x y z : Run α} (h : Refines limit n m Eq x y) (h' : Refines limit n k Eq y z) :
    Refines limit n m Eq x z := by
  intro s hn hlimit
  have hs := h hn hlimit
  have hs' := h' hn hlimit
  generalize x s = r at hs
  generalize y s = r' at hs hs'
  generalize z s = r'' at hs'
  cases hs with
  | ok hm hlimit h =>
    cases hs' with
    | ok _ _ h' => exact .ok hm hlimit (h.trans h')
  | failed => exact .failed
  | stopped =>
    cases hs' with
    | failed => exact .failed
    | stopped => exact .stopped

theorem get : Refines limit n n Eq get get := fun _ hn hlimit => .ok hn hlimit rfl

theorem modify {f : Machine → Machine} (hf : ∀ s, (f s).steps = s.steps) :
    Refines limit n n (fun _ _ => True) (modify f) (modify f) := by
  intro s hn hlimit
  have hs := hf s
  exact .ok (hs ▸ hn) (hs ▸ hlimit) trivial

theorem tick : Refines limit n (n + 1) (fun _ _ => True) (tick limit) (tick limit) := by
  intro s hn hlimit
  rw [tick_apply]
  split
  case isTrue => exact .stopped
  case isFalse h => exact .ok (Nat.succ_le_succ hn) (Nat.le_of_not_lt h) trivial

theorem ofFault {r : Except Fault α} {r' : Except Fault β} (h : ∀ a, r = .ok a → ∃ b, r' = .ok b ∧
    Q a b) :
    Refines limit n n Q (ofFault r) (ofFault r') := by
  cases r with
  | error e => exact fail
  | ok a =>
    obtain ⟨b, rfl, hab⟩ := h a rfl
    exact .pure hab

end Refines

/-- From any number of steps the second run does as well as the first. -/
def Improves (limit : Nat) (x y : Run α) : Prop := ∀ n, Refines limit n n Eq x y

def TopsImprove (limit : Nat) (tops tops' : TopId → Run (List Value)) : Prop :=
  ∀ t, Improves limit (tops t) (tops' t)

/-- Tails are evaluated as well, also where other atoms stand for the operands. -/
def TailsImprove (limit : Nat) (eval eval' : Env → Tail → Run (List Value)) : Prop :=
  ∀ ⦃env env' tail tail'⦄, tail.Paired (Atom.StandsFor env env') tail' →
    Improves limit (eval env tail) (eval' env' tail')

variable {p q : Program} {tops tops' : TopId → Run (List Value)}
  {eval eval' : Env → Tail → Run (List Value)} {env env' : Env}

theorem atom_eq_pure (tops : TopId → Run (List Value)) {a : Atom} {v : Value}
    (h : a.Has (fun _ _ => False) env v) : atom tops env a = pure v := by
  cases a with
  | temp t =>
    simp only [atom, show env.lookup t = some v from h]
  | word | flag | external => exact congrArg pure (Eq.symm h)
  | top => exact h.elim fun _ h => h.1.elim

section Operands

variable (htops : TopsImprove limit tops tops')
include htops

theorem atom_improves {a a' : Atom} (h : a.StandsFor env env' a') :
    Improves limit (atom tops env a) (atom tops' env' a') := by
  intro n
  cases a with
  | temp t =>
    simp only [atom]
    split
    case h_1 v hv =>
      rw [← atom.eq_def, atom_eq_pure tops' (h v hv)]
      exact .pure rfl
    case h_2 => exact .fail
  | top r =>
    cases h
    refine .andThen (htops r.top n) fun vs => ?_
    split
    · exact .pure rfl
    · exact .fail
  | word | flag | external =>
    cases h
    exact .pure rfl

theorem atoms_improve {as as' : List Atom} (h : List.Forall₂ (Atom.StandsFor env env') as as') :
    Improves limit (atoms tops env as) (atoms tops' env' as') := by
  intro n
  induction h with
  | nil => exact .pure rfl
  | cons ha _ ih =>
    exact .andThen (atom_improves htops ha n) fun v => .andThen ih fun vs => .pure rfl

theorem atoms_improve_self (env : Env) (as : List Atom) :
    Improves limit (atoms tops env as) (atoms tops' env as) :=
  atoms_improve htops (List.forall₂_same.mpr fun a _ => .refl env a)

end Operands

theorem prim_improves (o : Prim) (args : List Value) : Improves limit (prim o args)
    (prim o args) := by
  intro n
  cases o.request args with
  | load a => exact .andThen (.andThen .get fun s => .pure rfl) fun w => .pure rfl
  | store | print => exact .bind (.modify fun _ => rfl) fun _ _ _ => .pure rfl
  | ticks => exact .andThen .get fun s => .pure rfl
  | halt | loop => exact .stop
  | value hrun =>
    rw [hrun]
    unfold compute
    split
    · exact .pure rfl
    · exact .fail

theorem enter_improves (place place' : Place) (params : List Temp) (args : List Value) :
    Improves limit (enter place params args) (enter place' params args) := by
  intro n
  unfold enter
  split
  · exact .pure rfl
  · exact .fail

theorem select_improves (tail tail' : Tail) (ctor : Ctor) (field : Nat) (v : Value) :
    Improves limit (select tail ctor field v) (select tail' ctor field v) := by
  intro n
  unfold select
  split
  · split
    · split
      · exact .pure rfl
      · exact .fail
    · exact .fail
  · exact .fail

theorem assertCtor_improves (ctor : Ctor) (v : Value) :
    Improves limit (assertCtor ctor v) (assertCtor ctor v) := by
  intro n
  unfold assertCtor
  split
  · split
    · exact .pure rfl
    · exact .fail
  · exact .fail

theorem choose_refines {Q : Call → Call → Prop} {yes yes' no no' : Call} (hyes : Q yes yes')
    (hno : Q no no') (v : Value) : Refines limit n n Q (choose v yes no) (choose v yes' no') := by
  unfold choose
  split
  case h_1 b => cases b <;> exact .pure (by assumption)
  case h_2 => exact .fail

theorem chooseArm_refines {Q : Call → Call → Prop} {alts alts' : Alts}
    (h : ∀ ctor c, alts.select ctor = some c → ∃ c', alts'.select ctor = some c' ∧ Q c c')
    (v : Value) : Refines limit n n Q (chooseArm alts v) (chooseArm alts' v) := by
  unfold chooseArm
  split
  case h_1 ctor fields =>
    split
    case h_1 c hc =>
      obtain ⟨c', hc', hcc'⟩ := h ctor c hc
      rw [hc']
      exact .pure hcc'
    case h_2 => exact .fail
  case h_2 => exact .fail

section Bodies

variable (hext : p.Extends q) (htops : TopsImprove limit tops tops')
include hext htops

theorem jump_improves {c c' : Call} (h : c.Paired (Atom.StandsFor env env') c') :
    Improves limit (jump p tops env c) (jump q tops' env' c') := by
  intro n
  unfold jump
  rw [h.target]
  refine .bind (.ofFault (hext.block (b := c.target))) fun x y hxy => ?_
  rw [hxy.1, hxy.2]
  refine .andThen (atoms_improve htops h.args n) fun vs => .andThen (enter_improves _ _ _ vs n)
    fun _ => ?_
  exact .pure rfl

/-- Entering a closure takes a step, so fuel for the steps that are left is enough. -/
theorem tailStep_refines {fuel fuel' : Nat} (hfuel : limit < n + fuel) (hfuel' : limit < n + fuel')
    {tail tail' : Tail} (h : tail.Paired (Atom.StandsFor env env') tail') :
    Refines limit n n Eq (tailStep p limit tops fuel env tail)
      (tailStep q limit tops' fuel' env' tail') := by
  induction fuel generalizing fuel' n env env' tail tail' with
  | zero => exact fun s hn hlimit => by omega
  | succ fuel ih =>
    cases fuel' with
    | zero => exact fun s hn hlimit => by omega
    | succ fuel' =>
      unfold tailStep
      cases h with
      | ret h => exact .andThen (atoms_improve htops h n) fun vs => .pure rfl
      | call h => exact .andThen (jump_improves hext htops h n) fun next => .pure rfl
      | enter hf h =>
        refine .andThen (atom_improves htops hf n) fun v => ?_
        cases v with
        | closure k stored =>
          refine .bind (.ofFault (hext.closure (k := k))) fun x y hxy => ?_
          rw [hxy.1, hxy.2.1, hxy.2.2]
          refine .andThen (atoms_improve htops h n) fun vs => ?_
          refine .andThen (enter_improves _ _ _ _ n) fun env => .bind .tick fun _ _ _ => ?_
          exact (ih (by omega) (by omega) (x.tail.paired_self env)).weaken (Nat.le_succ n)
        | word | flag | data | external => exact .fail
      | data h => exact .andThen (atoms_improve htops h n) fun vs => .pure rfl
      | closure h => exact .andThen (atoms_improve htops h n) fun vs => .pure rfl
      | sel h =>
        refine .andThen (atom_improves htops h n) fun v => ?_
        exact .andThen (select_improves _ _ _ _ v n) fun x => .pure rfl
      | prim h =>
        refine .andThen (atoms_improve htops h n) fun vs => ?_
        exact .andThen (prim_improves _ vs n) fun xs => .pure rfl

variable (heval : TailsImprove limit eval eval')
include heval

theorem runCode_refines {fuel fuel' : Nat} (hfuel : limit < n + fuel) (hfuel' : limit < n + fuel')
    {code code' : Code} (h : Code.StandsFor env env' code code') :
    Refines limit n n Eq (runCode p limit eval tops fuel env code)
      (runCode q limit eval' tops' fuel' env' code') := by
  induction fuel generalizing fuel' n env env' code code' with
  | zero => exact fun s hn hlimit => by omega
  | succ fuel ih =>
    cases fuel' with
    | zero => exact fun s hn hlimit => by omega
    | succ fuel' =>
      have hrest {env env' : Env} {code code' : Code} (h : Code.StandsFor env env' code code') :
          Refines limit (n + 1) n Eq (runCode p limit eval tops fuel env code)
            (runCode q limit eval' tops' fuel' env' code') :=
        (ih (by omega) (by omega) h).weaken (Nat.le_succ n)
      -- After a jump both run the body of the same block.
      have hjump {c c' : Call} (hc : c.Paired (Atom.StandsFor env env') c') : Refines limit
        (n + 1) n Eq
          (do
            let next ← jump p tops env c
            runCode p limit eval tops fuel next.1 next.2)
          (do
            let next ← jump q tops' env' c'
            runCode q limit eval' tops' fuel' next.1 next.2) :=
        .andThen (jump_improves hext htops hc (n + 1)) fun next => hrest (.refl next.1 next.2)
      unfold runCode
      refine .bind .tick fun _ _ _ => ?_
      cases h with
      | done ht =>
        refine .andThen (tailStep_refines hext htops (by omega) (by omega) ht) fun step => ?_
        cases step with
        | values vs => exact (Refines.pure rfl).weaken (Nat.le_succ n)
        | jump env code => exact hrest (.refl env code)
      | bind ht hlen h =>
        refine .andThen (heval ht (n + 1)) fun vs => ?_
        rw [hlen]
        split
        case isTrue => exact .fail
        case isFalse hvs => exact hrest (h vs (Decidable.not_not.mp hvs))
      | assert ha h =>
        refine .andThen (atom_improves htops ha (n + 1)) fun v => ?_
        refine .andThen (assertCtor_improves _ v (n + 1)) fun _ => hrest h
      | branch ha hyes hno =>
        refine .andThen (atom_improves htops ha (n + 1)) fun v => ?_
        exact .bind (choose_refines hyes hno v) fun _ _ => hjump
      | switch ha halts =>
        refine .andThen (atom_improves htops ha (n + 1)) fun v => ?_
        exact .bind (chooseArm_refines halts v) fun _ _ => hjump

end Bodies

section Levels

variable (hext : p.Extends q)
include hext

theorem topValues_improve (heval : TailsImprove limit eval eval') :
    TopsImprove limit (topValues p eval) (topValues q eval') := by
  intro t n
  unfold topValues
  refine .andThen .get fun s => ?_
  split
  · exact .pure rfl
  · split
    · exact .fail
    · refine .bind (.ofFault (hext.top (t := t))) fun x y hxy => ?_
      rw [hxy.1, hxy.2]
      refine .bind (.modify fun _ => rfl) fun _ _ _ => ?_
      refine .andThen (heval (x.tail.paired_self []) n) fun vs => ?_
      refine .bind (.modify fun _ => rfl) fun _ _ _ => ?_
      split
      · exact .fail
      · exact .bind (.modify fun _ => rfl) fun _ _ _ => .pure rfl

theorem tailLevel_improves {below below' : Nat → Env → Code → Run (List Value)}
    (hbelow : ∀ idle env code, Improves limit (below idle env code) (below' idle env code))
    (idle : Nat) :
    TailsImprove limit (tailLevel p limit below idle) (tailLevel q limit below' idle) := by
  induction idle with
  | zero => exact fun _ _ _ _ _ _ => .stop
  | succ idle ih =>
    intro env env' tail tail' h n
    unfold tailLevel
    have htops := topValues_improve hext ih
    refine .andThen (tailStep_refines hext htops (by omega) (by omega) h) fun step => ?_
    cases step with
    | values vs => exact .pure rfl
    | jump env code => exact hbelow (idle + 1) env code n

theorem evalTail_improves {depth depth' : Nat} (hle : depth ≤ depth') (idle : Nat) :
    TailsImprove limit (evalTail p limit depth idle) (evalTail q limit depth' idle) := by
  induction depth generalizing depth' idle with
  | zero =>
    cases depth' with
    | zero => exact tailLevel_improves hext (fun _ _ _ _ => .fail) idle
    | succ depth' => exact tailLevel_improves hext (fun _ _ _ _ => .fail) idle
  | succ depth ih =>
    obtain ⟨depth', rfl⟩ : ∃ k, depth' = k + 1 := ⟨depth' - 1, by omega⟩
    refine tailLevel_improves hext (fun idle env code n => ?_) idle
    have htops := topValues_improve hext (ih (Nat.le_of_succ_le_succ hle) (idle - 1))
    exact runCode_refines hext htops (ih (Nat.le_of_succ_le_succ hle) idle) (by omega) (by omega)
      (.refl env code)

theorem topValues_evalTail_improve {depth depth' : Nat} (hle : depth ≤ depth') (idle : Nat) :
    TopsImprove limit (topValues p (evalTail p limit depth idle))
      (topValues q (evalTail q limit depth' idle)) :=
  topValues_improve hext (evalTail_improves hext hle idle)

end Levels

theorem evalCode_overrun (p : Program) (depth idle : Nat) (env : Env) (code : Code) {s : Machine}
    (hs : limit < s.steps) :
    evalCode p limit depth idle env code s = .error .diverged { s with steps := s.steps + 1 } := by
  unfold evalCode runCode
  simp only [bind, EStateM.bind, tick_apply, if_pos (Nat.lt_succ_of_lt hs)]

theorem Improves.evalCode_eq {depth depth' idle idle' : Nat} {code code' : Code}
    (h : Improves limit (evalCode p limit depth idle env code)
      (evalCode q limit depth' idle' env' code')) {s : Machine}
    (hs : ∀ e s', evalCode p limit depth idle env code s ≠ .error (.failed e) s') :
    evalCode q limit depth' idle' env' code' s = evalCode p limit depth idle env code s := by
  by_cases hlimit : s.steps ≤ limit
  · have hrun := h s.steps le_rfl hlimit
    generalize evalCode p limit depth idle env code s = r at hrun hs
    generalize evalCode q limit depth' idle' env' code' s = r' at hrun
    cases hrun with
    | ok _ _ hab => rw [hab]
    | failed => exact absurd rfl (hs _ _)
    | stopped => rfl
  · have hover := Nat.lt_of_not_le hlimit
    rw [evalCode_overrun p depth idle env code hover,
      evalCode_overrun q depth' idle' env' code' hover]

theorem evalCode_improves (hext : p.Extends q) (depth idle : Nat) (env : Env) (code : Code) :
    Improves limit (evalCode p limit depth idle env code) (evalCode q limit depth idle env code) :=
      fun _ =>
  runCode_refines hext (topValues_evalTail_improve hext (Nat.le_refl depth) (idle - 1))
    (evalTail_improves hext (Nat.le_refl depth) idle) (by omega) (by omega) (.refl env code)

end Run

end MonadicIR
