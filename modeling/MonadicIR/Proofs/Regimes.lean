import MonadicIR.Proofs.Components
import MonadicIR.Proofs.Equivalence
import MonadicIR.Proofs.Throughout

namespace MonadicIR

open List

/-- Does the error show a defect of the representation, and not of what the program does? -/
def RunError.Structural : RunError → Prop
  | fault _ | arity (.call _) _ _ | arity (.entry _) _ _ => True
  | _ => False

namespace Value

mutual

/-- Do all allocations in the value pass, for what they are and the number of their fields? -/
def Passes (data : Ctor → Nat → Prop) (closure : ClosureId → Nat → Prop) : Value → Prop
  | .data c fields => data c fields.length ∧ PassAll data closure fields
  | .closure k stored => closure k stored.length ∧ PassAll data closure stored
  | .word _ | .flag _ | .external _ => True

def PassAll (data : Ctor → Nat → Prop) (closure : ClosureId → Nat → Prop) : List Value → Prop
  | [] => True
  | v :: vs => Passes data closure v ∧ PassAll data closure vs

end

theorem passAll_iff {data : Ctor → Nat → Prop} {closure : ClosureId → Nat → Prop}
    {vs : List Value} : PassAll data closure vs ↔ ∀ v ∈ vs, v.Passes data closure := by
  induction vs with
  | nil => simp [PassAll]
  | cons v vs ih => simp [PassAll, ih]

end Value

/-- Code of which all tails, calls and operands pass. -/
def Code.Passes (atom : Atom → Prop) (tail : Tail → Prop) : Code → Prop
  | done t => tail t
  | bind _ t rest => tail t ∧ rest.Passes atom tail
  | assert a _ rest => atom a ∧ rest.Passes atom tail
  | branch test yes no => atom test ∧ ∀ c ∈ [yes, no], tail (.call c)
  | switch a alts => atom a ∧ ∀ c ∈ alts.calls, tail (.call c)

/-- Both programs have the same body, which is as it should be. It is there if that is `sure`. -/
structure Finds {γ δ : Type} (sure : Prop) (r r' : Except Fault γ) (body : γ → δ) (P : δ → Prop) :
    Prop where
  same : r.map body = r'.map body
  body : ∀ x, r = .ok x → P (body x)
  found : sure → ∃ x, r = .ok x

/-- What two programs may run, and the values that they may meet. -/
structure Regime (p q : Program) where
  data : Ctor → Nat → Prop
  closure : ClosureId → Nat → Prop
  atom : Atom → Prop
  tail : Tail → Prop
  top : TopId → Prop
  /-- Is it sure that nothing is missing? -/
  sure : Prop
  atoms : ∀ {t}, tail t → ∀ a ∈ t.atoms, atom a
  topAtom : ∀ {r}, atom (.top r) → top r.top ∧ ∀ x, p.top r.top = .ok x → sure →
    r.index < x.lhs.length
  allocates : ∀ {c as}, tail (.data c as) → data c as.length
  encloses : ∀ {k as}, tail (.closure k as) → closure k as.length
  selects : ∀ {ctor field a c n}, tail (.sel ctor field a) → data c n → c.same ctor = true → sure →
    field < n
  callee : ∀ {c}, tail (.call c) → Finds sure (p.block c.target) (q.block c.target)
    (fun x => (x.params, x.code)) fun x => (sure → x.1.length = c.args.length) ∧
      x.2.Passes atom tail
  entered : ∀ {k n}, closure k n → Finds sure (p.closure k) (q.closure k)
    (fun x => (x.stored, x.params, x.tail)) fun x => tail x.2.2
  computed : ∀ {t}, top t → Finds sure (p.top t) (q.top t) (fun x => (x.lhs, x.tail)) fun x =>
    tail x.2

namespace Regime

variable {p q : Program} (r : Regime p q)

def Value (v : Value) : Prop := v.Passes r.data r.closure

def Values (vs : List MonadicIR.Value) : Prop := ∀ v ∈ vs, r.Value v

def Code (code : Code) : Prop := code.Passes r.atom r.tail

def Env (env : Env) : Prop := ∀ t v, env.lookup t = some v → r.Value v

/-- Are these values that the top-level can have? -/
structure FitTop (t : TopId) (vs : List MonadicIR.Value) : Prop where
  length : ∀ x, p.top t = .ok x → vs.length = x.lhs.length
  values : r.Values vs

def Entry (args : List Word) : DefnId → Prop
  | .block b => r.tail (.call ⟨b, args.map .word⟩)
  | .top t => r.top t
  | .closure _ => True

variable {r}

theorem Env.nil : r.Env [] := by simp [Env, MonadicIR.Env.lookup]

theorem Env.bind {env : MonadicIR.Env} (h : r.Env env) {vals : List MonadicIR.Value}
    (hvals : r.Values vals) (vars : List Temp) : r.Env (env.bind vars vals) :=
  fun t v hv => (Env.lookup_bind hv).elim (hvals v) (h t v)

end Regime

/-- These top-levels are being computed, and the values of others are known by now. -/
structure Machine.Computing {p q : Program} (r : Regime p q) (pending : List TopId) (s : Machine) :
    Prop where
  pending : s.pending = pending
  known : ∀ e ∈ s.tops, r.FitTop e.1 e.2

namespace Run

theorem tick_apply (limit : Nat) (s : Machine) : tick limit s =
    if limit < s.steps + 1 then .error .diverged { s with steps := s.steps + 1 }
    else .ok () { s with steps := s.steps + 1 } := by
  have hstep : tick limit s = (if limit < s.steps + 1 then throw .diverged else pure () : Run Unit)
      { s with steps := s.steps + 1 } := rfl
  rw [hstep]
  split <;> rfl

def printed {α : Type} (r : EStateM.Result Stop Machine α) :
    List Observed := (endState r).output.toList

/-- The second run adds to what is printed, returns what is asked for and fails for no reason that
is ruled out. The first one is the same, unless it is cut off when it has printed a part of what the
second one prints. -/
structure Tracks {p q : Program} {α : Type} (r : Regime p q) (before after : List TopId)
    (x y : Run α) (P : α → Prop) : Prop where
  grows : ∀ s : Machine, s.Computing r before → s.output.toList <+: printed (y s)
  keeps : ∀ s : Machine, s.Computing r before → ∀ a s', y s = .ok a s' → s'.Computing r after ∧ P a
  fails : ∀ s : Machine, s.Computing r before → ∀ e s', y s = .error (.failed e) s' → r.sure →
    ¬e.Structural
  same : ∀ s : Machine, s.Computing r before →
    x s = y s ∨ ∃ s', x s = .error .diverged s' ∧ s'.output.toList <+: printed (y s)

namespace Tracks

variable {p q : Program} {α β γ δ : Type} {r : Regime p q} {i j k : List TopId} {x y : Run α}
  {f g : α → Run β} {P : α → Prop} {T : β → Prop}

protected theorem pure {a : α} (h : P a) : Tracks r i i (pure a) (pure a) P where
  grows _ _ := prefix_rfl
  keeps _ hs _ _ := by
    rintro ⟨⟩
    exact ⟨hs, h⟩
  fails _ _ _ _ := by rintro ⟨⟩
  same _ _ := .inl rfl

theorem stop {e : Stop} (h : ∀ e', e = .failed e' → r.sure → ¬e'.Structural) :
    Tracks r i j (throw e : Run α) (throw e) P where
  grows _ _ := prefix_rfl
  keeps _ _ _ _ := by rintro ⟨⟩
  fails _ _ _ _ := by
    rintro ⟨⟩
    exact h _ rfl
  same _ _ := .inl rfl

theorem fail {e : RunError} (h : r.sure → ¬e.Structural) : Tracks r i j (fail e : Run α)
    (fail e) P :=
  stop fun e' he => by
    cases he
    exact h

theorem diverged : Tracks r i j (throw .diverged : Run α) (throw .diverged) P :=
    stop fun _ h => by cases h

theorem cut (h : Tracks r i j x y P) : Tracks r i j (throw .diverged) y P :=
  { h with same := fun s hs => .inr ⟨s, rfl, h.grows s hs⟩ }

theorem printed_bind (hx : Tracks r i j x y P) (hf : ∀ a, P a → Tracks r j k (f a) (g a) T)
    {s : Machine} (hs : s.Computing r i) {output : List Observed}
    (hprinted : output <+: printed (y s)) : output <+: printed ((y >>= g) s) := by
  have hkeeps := hx.keeps s hs
  simp only [bind, EStateM.bind]
  cases hy : y s with
  | ok a s' =>
    rw [hy] at hprinted
    obtain ⟨hs', ha⟩ := hkeeps a s' hy
    exact hprinted.trans ((hf a ha).grows s' hs')
  | error e s' => rwa [hy] at hprinted

protected theorem bind (hx : Tracks r i j x y P) (hf : ∀ a, P a → Tracks r j k (f a) (g a) T) :
    Tracks r i k (x >>= f) (y >>= g) T where
  grows s hs := printed_bind hx hf hs (hx.grows s hs)
  keeps s hs b s'' hrun := by
    obtain ⟨a, s', hy, hg⟩ := bind_ok_iff.mp hrun
    obtain ⟨hs', ha⟩ := hx.keeps s hs a s' hy
    exact (hf a ha).keeps s' hs' b s'' hg
  fails s hs e s'' hrun := by
    obtain hy | ⟨a, s', hy, hg⟩ := bind_error_iff.mp hrun
    · exact hx.fails s hs e s'' hy
    · obtain ⟨hs', ha⟩ := hx.keeps s hs a s' hy
      exact (hf a ha).fails s' hs' e s'' hg
  same s hs := by
    obtain hsame | ⟨s1, hcut, hprinted⟩ := hx.same s hs
    · have hkeeps := hx.keeps s hs
      simp only [bind, EStateM.bind, hsame]
      cases hy : y s with
      | ok a s' =>
        obtain ⟨hs', ha⟩ := hkeeps a s' hy
        exact (hf a ha).same s' hs'
      | error e s' => exact .inl rfl
    · refine .inr ⟨s1, ?_, printed_bind hx hf hs hprinted⟩
      simp only [bind, EStateM.bind, hcut]

theorem get : Tracks r i i get get fun s => s.Computing r i where
  grows _ _ := prefix_rfl
  keeps _ hs _ _ := by
    rintro ⟨⟩
    exact ⟨hs, hs⟩
  fails _ _ _ _ := by rintro ⟨⟩
  same _ _ := .inl rfl

theorem modify {f : Machine → Machine} (hf : ∀ s, s.Computing r i → (f s).Computing r j)
    (hprints : ∀ s, s.output.toList <+: (f s).output.toList) :
    Tracks r i j (modify f) (modify f) fun _ => True where
  grows s _ := hprints s
  keeps s hs _ _ := by
    rintro ⟨⟩
    exact ⟨hf s hs, trivial⟩
  fails _ _ _ _ := by rintro ⟨⟩
  same _ _ := .inl rfl

theorem tick {n m : Nat} (h : n ≤ m) : Tracks r i i (tick n) (tick m) fun _ => True where
  grows s _ := by
    rw [tick_apply]
    split <;> exact prefix_rfl
  keeps s hs _ _ := by
    rw [tick_apply]
    split
    · rintro ⟨⟩
    · rintro ⟨⟩
      exact ⟨⟨hs.pending, hs.known⟩, trivial⟩
  fails s _ _ _ := by
    rw [tick_apply]
    split <;> rintro ⟨⟩
  same s _ := by
    rw [tick_apply, tick_apply]
    by_cases hn : n < s.steps + 1
    · refine .inr ⟨_, if_pos hn, ?_⟩
      split <;> exact prefix_rfl
    · rw [if_neg hn, if_neg (by omega)]
      exact .inl rfl

theorem ofFault {a b : Except Fault γ} {body : γ → δ} {B : δ → Prop} (h : Finds r.sure a b body B)
    {f g : γ → Run α} (hok : ∀ x y, a = .ok x → b = .ok y → body x = body y → B (body x) →
      Tracks r i j (f x) (g y) P) : Tracks r i j (ofFault a >>= f) (ofFault b >>= g) P := by
  have hsame := h.same
  cases a with
  | error e =>
    cases b with
    | error e' =>
      obtain rfl := Except.error.inj hsame
      refine fail fun hsure => ?_
      obtain ⟨x, hx⟩ := h.found hsure
      cases hx
    | ok => cases hsame
  | ok x =>
    cases b with
    | error => cases hsame
    | ok y => exact hok x y rfl rfl (Except.ok.inj hsame) (h.body x rfl)

end Tracks

variable {p q : Program} {r : Regime p q} {n m : Nat} {pending : List TopId}
  {tops tops' : TopId → Run (List Value)} {eval eval' : Env → Tail → Run (List Value)} {env : Env}

/-- The values of top-levels of the regime are computed alike. -/
def TopsTrack (r : Regime p q) (pending : List TopId) (tops tops' : TopId → Run (List Value)) :
    Prop :=
  ∀ ⦃t⦄, r.top t → Tracks r pending pending (tops t) (tops' t) (r.FitTop t)

def TailsTrack (r : Regime p q) (pending : List TopId)
    (eval eval' : Env → Tail → Run (List Value)) : Prop :=
  ∀ ⦃env tail⦄, r.Env env → r.tail tail →
    Tracks r pending pending (eval env tail) (eval' env tail) r.Values

def CodeTracks (r : Regime p q) (pending : List TopId) (run run' : Env → Code → Run (List Value)) :
    Prop :=
  ∀ ⦃env code⦄, r.Env env → r.Code code →
    Tracks r pending pending (run env code) (run' env code) r.Values

section Operands

variable (htops : TopsTrack r pending tops tops') (henv : r.Env env)

include htops henv

theorem atom_tracks {a : Atom} (ha : r.atom a) :
    Tracks r pending pending (atom tops env a) (atom tops' env a) r.Value := by
  cases a with
  | temp t =>
    simp only [atom]
    split
    · exact .pure (henv t _ ‹_›)
    · exact .fail fun _ => id
  | top ref =>
    obtain ⟨htop, hindex⟩ := r.topAtom ha
    refine .bind (htops htop) fun vs hvs => ?_
    split
    · exact .pure (hvs.values _ (mem_of_getElem? ‹_›))
    · rename_i hnone
      refine .fail fun hsure => ?_
      obtain ⟨x, hx⟩ := (r.computed htop).found hsure
      have hlt := hindex x hx hsure
      rw [getElem?_eq_none_iff, hvs.length x hx] at hnone
      omega
  | word | flag | external => exact .pure (by simp [Regime.Value, Value.Passes])

theorem atoms_tracks {as : List Atom} (has : ∀ a ∈ as, r.atom a) :
    Tracks r pending pending (atoms tops env as) (atoms tops' env as) fun vs =>
      vs.length = as.length ∧ r.Values vs := by
  induction as with
  | nil => exact .pure (by simp [Regime.Values])
  | cons a as ih =>
    rw [forall_mem_cons] at has
    refine .bind (atom_tracks htops henv has.1) fun v hv => .bind (ih has.2) fun vs hvs => ?_
    exact .pure ⟨by simp [hvs.1], forall_mem_cons.mpr ⟨hv, hvs.2⟩⟩

end Operands

theorem prim_tracks (o : Prim) (args : List Value) :
    Tracks r pending pending (prim o args) (prim o args) r.Values := by
  have hword (w : Word) : r.Values [.word w] := by simp [Regime.Values, Regime.Value, Value.Passes]
  have hnil : r.Values [] := by simp [Regime.Values]
  cases o.request args with
  | load a =>
    exact .bind (.bind .get fun s _ => .pure (P := fun _ => True) trivial) fun w _ =>
      .pure (hword w)
  | store a x =>
    exact .bind (.modify (j := pending) (fun s hs => ⟨hs.pending, hs.known⟩) fun _ => prefix_rfl)
      fun _ _ => .pure hnil
  | print v =>
    exact .bind (.modify (j := pending) (fun s hs => ⟨hs.pending, hs.known⟩) fun s => by simp)
      fun _ _ => .pure hnil
  | ticks => exact .bind .get fun s _ => .pure (hword s.clock)
  | halt => exact .stop fun _ h => by cases h
  | loop => exact .diverged
  | value hrun =>
    rw [hrun]
    unfold compute
    split
    · rename_i value _
      refine .pure ?_
      cases value <;> simp [Regime.Values, Regime.Value, Value.ofScalar, Value.Passes]
    · exact .fail fun _ => id

theorem enter_tracks {place : Place} {params : List Temp} {args : List Value}
    (hlen : r.sure → params.length = args.length ∨
      ¬(RunError.arity place params.length args.length).Structural) (hargs : r.Values args) :
    Tracks r pending pending (enter place params args) (enter place params args) r.Env := by
  unfold enter
  split
  · exact .pure (Regime.Env.nil.bind hargs params)
  · exact .fail fun hsure => (hlen hsure).resolve_left ‹_›

theorem select_tracks {tail : Tail} {ctor : Ctor} {field : Nat} {a : Atom}
    (ht : r.tail (.sel ctor field a)) {v : Value} (hv : r.Value v) :
    Tracks r pending pending (select tail ctor field v) (select tail ctor field v) r.Value := by
  unfold select
  split
  · obtain ⟨hdata, hfields⟩ := hv
    split
    · rename_i hsame
      split
      · exact .pure (Value.passAll_iff.mp hfields _ (mem_of_getElem? ‹_›))
      · rename_i hnone
        refine .fail fun hsure => ?_
        have hlt := r.selects ht hdata hsame hsure
        rw [getElem?_eq_none_iff] at hnone
        omega
    · exact .fail fun _ => id
  · exact .fail fun _ => id

/-- All that a tail leaves behind stays in the regime. -/
def Step.Stays (r : Regime p q) : Step → Prop
  | .values vs => r.Values vs
  | .jump env code => r.Env env ∧ r.Code code

/-- So many top-levels may still be entered while these are being computed. -/
structure Room (p : Program) (idle : Nat) (pending : List TopId) : Prop where
  nodup : pending.Nodup
  defined : ∀ t ∈ pending, t.index < p.tops.size
  enough : p.tops.size < idle + pending.length

theorem Room.start (p : Program) : Room p (idleAtStart p) [] :=
  ⟨.nil, by simp, by simp [idleAtStart]⟩

theorem Room.pos {idle : Nat} (h : Room p idle pending) : ∃ k, idle = k + 1 := by
  have hlen := p.length_le_tops h.nodup h.defined
  have := h.enough
  exact ⟨idle - 1, by omega⟩

theorem Room.push {idle : Nat} (h : Room p idle pending) {t : TopId} (ht : t ∉ pending)
    (hdef : t.index < p.tops.size) : Room p (idle - 1) (t :: pending) := by
  have := h.enough
  refine ⟨nodup_cons.mpr ⟨ht, h.nodup⟩, forall_mem_cons.mpr ⟨hdef, h.defined⟩, ?_⟩
  simp only [length_cons]
  omega

section Bodies

theorem jump_tracks (htops : TopsTrack r pending tops tops') (henv : r.Env env) {c : Call}
    (hc : r.tail (.call c)) : Tracks r pending pending (jump p tops env c)
    (jump q tops' env c) fun next => r.Env next.1 ∧ r.Code next.2 := by
  refine .ofFault (r.callee hc) fun x y _ _ hxy hx => ?_
  obtain ⟨hparams, hcode⟩ := Prod.mk.inj hxy
  rw [← hparams, ← hcode]
  refine .bind (atoms_tracks htops henv (r.atoms hc)) fun args hargs => ?_
  refine .bind (enter_tracks (fun hsure => .inl ?_) hargs.2) fun env henv => .pure ⟨henv, hx.2⟩
  rw [hargs.1]
  exact hx.1 hsure

variable (hle : n ≤ m)

include hle

theorem tailStep_tracks (htops : TopsTrack r pending tops tops') {fuel fuel' : Nat}
    (hfuel : fuel ≤ fuel') {env : Env} {tail : Tail} (henv : r.Env env) (ht : r.tail tail) :
    Tracks r pending pending (tailStep p n tops fuel env tail) (tailStep q m tops' fuel' env tail)
      (Step.Stays r) := by
  induction fuel' generalizing fuel env tail with
  | zero =>
    obtain rfl : fuel = 0 := by omega
    exact .diverged
  | succ fuel' ih =>
    have hstep {fuel : Nat} (hfuel : fuel ≤ fuel') : Tracks r pending pending
        (tailStep p n tops (fuel + 1) env tail) (tailStep q m tops' (fuel' + 1) env tail)
        (Step.Stays r) := by
      have hatoms := r.atoms ht
      unfold tailStep
      cases tail with
      | ret args => exact .bind (atoms_tracks htops henv hatoms) fun vs hvs => .pure hvs.2
      | call c => exact .bind (jump_tracks htops henv ht) fun next hnext => .pure hnext
      | enter f args =>
        simp only [Tail.atoms, forall_mem_cons] at hatoms
        refine .bind (atom_tracks htops henv hatoms.1) fun v hv => ?_
        cases v with
        | closure k stored =>
          refine .ofFault (r.entered hv.1) fun x y _ _ hxy hx => ?_
          simp only [Prod.mk.injEq] at hxy
          obtain ⟨hstored, hparams, htail⟩ := hxy
          rw [← hstored, ← hparams, ← htail]
          refine .bind (atoms_tracks htops henv hatoms.2) fun vs hvs => ?_
          refine .bind (enter_tracks (fun _ => .inr id) ?_) fun env henv => ?_
          · exact forall_mem_append.mpr ⟨Value.passAll_iff.mp hv.2, hvs.2⟩
          · exact .bind (.tick hle) fun _ _ => ih hfuel henv hx
        | word | flag | data | external => exact .fail fun _ => id
      | data ctor args =>
        refine .bind (atoms_tracks htops henv hatoms) fun vs hvs => .pure ?_
        have hdata : r.Value (.data ctor vs) :=
          ⟨hvs.1 ▸ r.allocates ht, Value.passAll_iff.mpr hvs.2⟩
        simpa [Step.Stays, Regime.Values] using hdata
      | closure k args =>
        refine .bind (atoms_tracks htops henv hatoms) fun vs hvs => .pure ?_
        have hclosure : r.Value (.closure k vs) :=
          ⟨hvs.1 ▸ r.encloses ht, Value.passAll_iff.mpr hvs.2⟩
        simpa [Step.Stays, Regime.Values] using hclosure
      | sel ctor field a =>
        refine .bind (atom_tracks htops henv (hatoms a (by simp [Tail.atoms]))) fun v hv => ?_
        exact .bind (select_tracks ht hv) fun x hx => .pure (by simpa [Step.Stays, Regime.Values])
      | prim o args =>
        refine .bind (atoms_tracks htops henv hatoms) fun vs _ => ?_
        exact .bind (prim_tracks o vs) fun xs hxs => .pure hxs
    -- A first run without fuel is cut off where one with a little of it goes on.
    cases fuel with
    | zero => exact (hstep (Nat.zero_le _)).cut
    | succ fuel => exact hstep (by omega)

theorem runCode_tracks (heval : TailsTrack r pending eval eval')
    (htops : TopsTrack r pending tops tops') {fuel fuel' : Nat} (hfuel : fuel ≤ fuel') :
    CodeTracks r pending (runCode p n eval tops fuel) (runCode q m eval' tops' fuel') := by
  induction fuel' generalizing fuel with
  | zero =>
    obtain rfl : fuel = 0 := by omega
    exact fun _ _ _ _ => .diverged
  | succ fuel' ih =>
    intro env code henv hcode
    have hstep {fuel : Nat} (hfuel : fuel ≤ fuel') : Tracks r pending pending
        (runCode p n eval tops (fuel + 1) env code) (runCode q m eval' tops' (fuel' + 1) env code)
        r.Values := by
      have hjump {c : Call} (hc : r.tail (.call c)) : Tracks r pending pending
          (do
            let next ← jump p tops env c
            runCode p n eval tops fuel next.1 next.2)
          (do
            let next ← jump q tops' env c
            runCode q m eval' tops' fuel' next.1 next.2) r.Values :=
        .bind (jump_tracks htops henv hc) fun next hnext => ih hfuel hnext.1 hnext.2
      unfold runCode
      refine .bind (.tick hle) fun _ _ => ?_
      cases code with
      | done tail =>
        have htail := tailStep_tracks hle htops (Nat.succ_le_succ hle) henv hcode
        refine .bind htail fun step hstep => ?_
        cases step with
        | values vs => exact .pure hstep
        | jump env code => exact ih hfuel hstep.1 hstep.2
      | bind vars tail rest =>
        refine .bind (heval henv hcode.1) fun vs hvs => ?_
        split
        · exact .fail fun _ => id
        · exact ih hfuel (henv.bind hvs vars) hcode.2
      | assert a ctor rest =>
        refine .bind (atom_tracks htops henv hcode.1) fun v _ => ?_
        refine .bind (P := fun _ => True) ?_ fun _ _ => ih hfuel henv hcode.2
        unfold assertCtor
        split
        · split
          · exact .pure trivial
          · exact .fail fun _ => id
        · exact .fail fun _ => id
      | branch test yes no =>
        refine .bind (atom_tracks htops henv hcode.1) fun v _ => ?_
        refine .bind (P := fun c => c ∈ [yes, no]) ?_ fun c hc => hjump (hcode.2 c hc)
        unfold choose
        split
        · exact .pure (by split <;> simp)
        · exact .fail fun _ => id
      | switch a alts =>
        refine .bind (atom_tracks htops henv hcode.1) fun v _ => ?_
        refine .bind (P := fun c => c ∈ alts.calls) ?_ fun c hc => hjump (hcode.2 c hc)
        unfold chooseArm
        split
        · split
          · exact .pure (Alts.mem_calls_of_select ‹_›)
          · exact .fail fun _ => id
        · exact .fail fun _ => id
    cases fuel with
    | zero => exact (hstep (Nat.zero_le _)).cut
    | succ fuel => exact hstep (by omega)

omit hle in
theorem topValues_tracks (heval : ∀ t ∉ pending, t.index < p.tops.size → t.index < q.tops.size →
      TailsTrack r (t :: pending) eval eval') :
    TopsTrack r pending (topValues p eval) (topValues q eval') := by
  intro t ht
  unfold topValues
  refine .bind .get fun s hs => ?_
  split
  · rename_i u vs hfind
    obtain rfl : u = t := by simpa using List.find?_some hfind
    exact .pure (hs.known _ (List.mem_of_find?_eq_some hfind))
  · split
    · exact .fail fun _ => id
    · rename_i hnew
      rw [hs.pending, List.contains_iff_mem] at hnew
      refine .ofFault (r.computed ht) fun x y hx hy hxy htail => ?_
      obtain ⟨hlhs, hxy⟩ := Prod.mk.inj hxy
      rw [← hlhs, ← hxy]
      have hdef {p : Program} {x : TopLevel} (hx : p.top t = .ok x) : t.index < p.tops.size :=
        (Array.getElem?_eq_some_iff.mp (Program.top_eq_ok_iff.mp hx)).1
      refine .bind (.modify (j := t :: pending) (fun s hs => ⟨?_, hs.known⟩) fun _ => prefix_rfl)
        fun _ _ => ?_
      · rw [hs.pending]
      refine .bind (heval t hnew (hdef hx) (hdef hy) Regime.Env.nil htail) fun vs hvs => ?_
      refine .bind (.modify (j := pending) (fun s hs => ⟨?_, hs.known⟩) fun _ => prefix_rfl)
        fun _ _ => ?_
      · rw [hs.pending, List.tail_cons]
      split
      · exact .fail fun _ => id
      · -- What is remembered from now on fits the top-level.
        rename_i hlen
        have hfit : r.FitTop t vs := by
          refine ⟨fun z hz => ?_, hvs⟩
          obtain rfl := Except.ok.inj (hx.symm.trans hz)
          exact not_not.mp hlen
        refine .bind (.modify (fun s hs => ⟨hs.pending, ?_⟩) fun _ => prefix_rfl)
          fun _ _ => .pure hfit
        exact forall_mem_cons.mpr ⟨hfit, hs.known⟩

theorem tailLevel_tracks {below below' : Nat → Env → Code → Run (List Value)}
    (hbelow : ∀ {idle idle' pending}, Room p idle pending → Room q idle' pending →
      CodeTracks r pending (below idle) (below' idle'))
    {idle idle' : Nat} (hroom : Room p idle pending) (hroom' : Room q idle' pending) :
    TailsTrack r pending (tailLevel p n below idle) (tailLevel q m below' idle') := by
  induction idle generalizing idle' pending with
  | zero =>
    obtain ⟨_, ⟨⟩⟩ := hroom.pos
  | succ idle ih =>
    obtain ⟨idle', rfl⟩ := hroom'.pos
    intro env tail henv ht
    have htops := topValues_tracks fun t hnew hdef hdef' =>
      ih (hroom.push hnew hdef) (hroom'.push hnew hdef')
    unfold tailLevel
    refine .bind (tailStep_tracks hle htops (Nat.succ_le_succ hle) henv ht) fun step hstep => ?_
    cases step with
    | values vs => exact .pure hstep
    | jump env code => exact hbelow hroom hroom' hstep.1 hstep.2

theorem evalTail_tracks (depth : Nat) {idle idle' : Nat} (hroom : Room p idle pending)
    (hroom' : Room q idle' pending) :
    TailsTrack r pending (evalTail p n depth idle) (evalTail q m depth idle') := by
  induction depth generalizing idle idle' pending with
  | zero => exact tailLevel_tracks hle (fun _ _ _ _ _ _ => .fail fun _ => id) hroom hroom'
  | succ depth ih =>
    refine tailLevel_tracks hle (fun hroom hroom' => ?_) hroom hroom'
    refine runCode_tracks hle (ih hroom hroom') ?_ (Nat.succ_le_succ hle)
    exact topValues_tracks fun t hnew hdef hdef' => ih (hroom.push hnew hdef)
      (hroom'.push hnew hdef')

theorem evalEntry_tracks {entry : DefnId} {args : List Word} (hentry : r.Entry args entry) :
    Tracks r [] [] (evalEntry p n entry args) (evalEntry q m entry args) r.Values := by
  have htops : TopsTrack r [] (topValues p (evalTail p n depthLimit p.tops.size))
      (topValues q (evalTail q m depthLimit q.tops.size)) :=
    topValues_tracks fun t hnew hdef hdef' =>
      evalTail_tracks hle _ ((Room.start p).push hnew hdef) ((Room.start q).push hnew hdef')
  unfold evalEntry runBlock
  split
  · refine .ofFault (r.callee hentry) fun x y _ _ hxy hx => ?_
    obtain ⟨hparams, hcode⟩ := Prod.mk.inj hxy
    rw [← hparams, ← hcode]
    refine .bind (enter_tracks (fun hsure => .inl ?_) ?_) fun env henv => ?_
    · simpa using hx.1 hsure
    · simp [Regime.Values, Regime.Value, Value.Passes]
    · exact runCode_tracks hle (evalTail_tracks hle _ (.start p) (.start q)) htops
        (Nat.succ_le_succ hle) henv hx.2
  · have ht := htops hentry
    exact { ht with
      keeps := fun s hs vs s' hrun => (ht.keeps s hs vs s' hrun).imp_right (·.values) }
  · exact .fail fun _ => id

end Bodies

end Run

end MonadicIR
