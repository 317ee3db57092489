import MonadicIR.Proofs.Environment
import MonadicIR.Proofs.NothingDead

namespace MonadicIR

/-- Once variables have been bound to the same values, the environments agree on them too. -/
theorem Env.AgreesOn.bind {xs vars : List Temp} {env env' : Env} {vs : List Value}
    (h : ∀ x ∈ xs, x ∉ vars → env'.lookup x = env.lookup x) (henv : env.Named) (henv' : env'.Named)
    (hlen : vars.length = vs.length) : (env.bind vars vs).AgreesOn xs (env'.bind vars vs) := by
  have hsub {env env' : Env} (henv : env.Named) {x : Temp}
      (h : x ∉ vars → env'.lookup x = env.lookup x) {v : Value}
      (hv : (env.bind vars vs).lookup x = some v) : (env'.bind vars vs).lookup x = some v := by
    obtain ⟨_, hv', rfl⟩ := Env.bind_related (List.forall₂_same.mpr fun v _ => rfl) hlen
      (henv.bind vars vs x v hv) (fun hx u hu => ⟨u, (h hx).trans hu, rfl⟩) hv
    exact hv'
  intro x hx
  exact Option.ext fun v => ⟨hsub henv' fun hnew => (h x hx hnew).symm, hsub henv (h x hx)⟩

/-- The variables among the atoms have the same values in both environments. -/
def Env.AgreesOver (as : List Atom) (env env' : Env) : Prop :=
  ∀ t, .temp t ∈ as → env'.lookup t = env.lookup t

theorem Env.AgreesOn.over {code : Code} {env env' : Env} (h : env.AgreesOn code.freeTemps env')
    (hend : code.openReads [] = (tempsOf code.atoms).filter (!List.contains [] ·)) :
    env.AgreesOver code.atoms env' := by
  intro t ht
  refine h t (mem_distinct.mpr ?_)
  rw [hend, List.mem_filter]
  exact ⟨List.mem_filterMap.mpr ⟨_, ht, rfl⟩, rfl⟩

namespace Run

variable {p : Program} {limit fuel : Nat} {tops : TopId → Run (List Value)} {env env' : Env}

theorem atom_agree {a : Atom} {as : List Atom} (h : env.AgreesOver as env') (ha : a ∈ as) :
    atom tops env' a = atom tops env a := by
  cases a with
  | temp t => simp only [atom, h t ha]
  | word | flag | top | external => rfl

theorem atoms_agree {as bs : List Atom} (h : env.AgreesOver bs env') (has : as ⊆ bs) :
    atoms tops env' as = atoms tops env as := by
  induction as with
  | nil => rfl
  | cons a as ih =>
    rw [List.cons_subset] at has
    rw [atoms, atoms, atom_agree h has.1, ih has.2]

theorem jump_agree {c : Call} {as : List Atom} (h : env.AgreesOver as env') (hc : c.args ⊆ as) :
    jump p tops env' c = jump p tops env c := by
  rw [jump, jump, atoms_agree h hc]

theorem tailStep_agree {tail : Tail} (h : env.AgreesOver tail.atoms env') :
    tailStep p limit tops fuel env' tail = tailStep p limit tops fuel env tail := by
  cases fuel with
  | zero => rfl
  | succ fuel =>
    cases tail with
    | ret args | data _ args | closure _ args | prim _ args =>
      simp only [tailStep, atoms_agree h (List.Subset.refl args)]
    | call c => simp only [tailStep, jump_agree h (List.Subset.refl c.args)]
    | sel ctor field a => simp only [tailStep, atom_agree h (List.mem_singleton_self a)]
    | enter f args =>
      simp only [tailStep, atom_agree h (.head ..), atoms_agree h (List.subset_cons_self ..)]

theorem evalTail_agree (depth idle : Nat) {tail : Tail} (h : env.AgreesOver tail.atoms env') :
    evalTail p limit depth idle env' tail = evalTail p limit depth idle env tail := by
  cases depth <;> cases idle <;> simp only [evalTail, tailLevel, tailStep_agree h]

theorem runCode_agree {eval : Env → Tail → Run (List Value)}
    (heval : ∀ ⦃env env' tail⦄, env.AgreesOver tail.atoms env' → eval env' tail = eval env tail)
    {code : Code} (henv : env.Named) (henv' : env'.Named) (h : env.AgreesOn code.freeTemps env') :
    runCode p limit eval tops fuel env' code = runCode p limit eval tops fuel env code := by
  induction fuel generalizing env env' code with
  | zero => rfl
  | succ fuel ih =>
    unfold runCode
    refine bind_congr fun _ => ?_
    cases code with
    | done t => simp only [tailStep_agree (h.over rfl)]
    | bind vars t rest =>
      have ht : env.AgreesOver t.atoms env' := fun x hx =>
        h x (Code.mem_freeTemps_bind.mpr (.inl (List.mem_filterMap.mpr ⟨_, hx, rfl⟩)))
      simp only [heval ht]
      refine bind_congr fun vs => ?_
      split
      · rfl
      · rename_i hlen
        refine ih (henv.bind vars vs) (henv'.bind vars vs)
          (.bind (fun x hx hnew => ?_) henv henv' ?_)
        · exact h x (Code.mem_freeTemps_bind.mpr (.inr ⟨hx, hnew⟩))
        · exact (Decidable.not_not.mp hlen).symm
    | assert a ctor rest =>
      have ha : env.AgreesOver [a] env' := fun x hx =>
        h x (Code.mem_freeTemps_assert.mpr (.inl (List.mem_singleton.mp hx ▸ rfl)))
      have hrest : env.AgreesOn rest.freeTemps env' := fun x hx =>
        h x (Code.mem_freeTemps_assert.mpr (.inr hx))
      simp only [atom_agree ha (List.mem_singleton_self a), ih henv henv' hrest]
    | branch test yes no =>
      have hover := h.over rfl
      have hjump (b : Bool) : jump p tops env' (if b then yes else no) =
          jump p tops env (if b then yes else no) :=
        jump_agree hover (by cases b <;> simp [Code.atoms])
      simp only [atom_agree hover (.head ..)]
      refine bind_congr fun v => ?_
      cases v with
      | flag b => simp only [choose, pure_bind, hjump]
      | word | data | closure | external => rfl
    | switch a alts =>
      have hover := h.over rfl
      simp only [atom_agree hover (.head ..)]
      refine bind_congr fun v => ?_
      cases v with
      | data ctor fields =>
        simp only [chooseArm]
        cases hc : alts.select ctor with
        | none => rfl
        | some c =>
          have hargs : c.args ⊆ (Code.switch a alts).atoms := fun x hx =>
            .tail _ (List.mem_flatMap.mpr ⟨c, Alts.mem_calls_of_select hc, hx⟩)
          simp only [pure_bind, jump_agree hover hargs]
      | word | flag | closure | external => rfl

end Run

namespace Block

def missing (block : Block) : List Temp := block.code.freeTemps.filter (!block.params.contains ·)

/-- The block with a parameter for each free variable. -/
def closed (block : Block) : Block := { block with params := block.params ++ block.missing }

theorem mem_params_closed (block : Block) : ∀ t ∈ block.code.freeTemps,
    t ∈ block.closed.params := by
  intro t ht
  by_cases hp : t ∈ block.params <;> simp [closed, missing, hp, ht]

theorem missing_closed (block : Block) : block.closed.missing = [] :=
  List.filter_eq_nil_iff.mpr fun t ht => by simpa using block.mem_params_closed t ht

theorem closed_closed (block : Block) : block.closed.closed = block.closed := by
  rw [closed, missing_closed, List.append_nil]

end Block

theorem Edit.addArgs_ok {p : Program} {b : BlockId} {block : Block}
    (hblock : p.block b = .ok block) :
    addArgs b p = .ok block.missing (p.setBlock b block.closed) :=
  bind_ok_iff.mpr ⟨block, p, read_eq_ok_iff.mpr ⟨hblock, rfl⟩, rfl⟩

/-- Code depends on nothing but its free variables: from the same machine it ends alike in
environments that agree on them. Once the free variables of a block have been made parameters, all
of them are, and doing so again changes nothing. -/
theorem Code.freeTemps_suffice (p : Program) :
    (∀ (limit depth idle : Nat) (code : Code) (env env' : Env) (s : Machine), env.Named →
      env'.Named →
      env.AgreesOn code.freeTemps env' →
        Run.evalCode p limit depth idle env' code s = Run.evalCode p limit depth idle env code s) ∧
    ∀ b block, p.block b = .ok block → ∃ added p', Edit.addArgs b p = .ok added p' ∧
      p'.block b = .ok { block with params := block.params ++ added } ∧
      (∀ t ∈ block.code.freeTemps, t ∈ block.params ++ added) ∧ Edit.addArgs b p' = .ok [] p' := by
  refine ⟨fun limit depth idle code env env' s henv henv' h => ?_, fun b block hblock => ?_⟩
  · exact congrFun (Run.runCode_agree (fun _ _ _ => Run.evalTail_agree depth idle) henv henv' h) s
  · have hclosed : (p.setBlock b block.closed).block b = .ok block.closed := by
      rw [Program.block_eq_ok_iff, Program.getElem?_setBlock (Program.block_eq_ok_iff.mp hblock),
        if_pos rfl]
    refine ⟨_, _, Edit.addArgs_ok hblock, hclosed, block.mem_params_closed, ?_⟩
    rw [Edit.addArgs_ok hclosed, Block.missing_closed, Block.closed_closed]
    simp [Program.setBlock]

/-- A block that reads a variable which it neither takes nor binds. -/
def Program.reading : Program where
  blocks := #[{
    params := [⟨1⟩]
    code := .bind [⟨2⟩] (.prim .add [.temp ⟨3⟩, .temp ⟨1⟩]) (.done (.ret [.temp ⟨2⟩])) }]

theorem Code.freeTemps_suffice_reading :
    (∀ s, Run.evalCode .reading 9 1 1 [(⟨1⟩, .word 2), (⟨2⟩, .word 7), (⟨3⟩, .word 4)]
        (.bind [⟨2⟩] (.prim .add [.temp ⟨3⟩, .temp ⟨1⟩]) (.done (.ret [.temp ⟨2⟩]))) s =
      Run.evalCode .reading 9 1 1 [(⟨3⟩, .word 4), (⟨1⟩, .word 2)]
        (.bind [⟨2⟩] (.prim .add [.temp ⟨3⟩, .temp ⟨1⟩]) (.done (.ret [.temp ⟨2⟩]))) s) ∧
    ∃ p', Edit.addArgs ⟨0⟩ .reading = .ok [⟨3⟩] p' ∧ Edit.addArgs ⟨0⟩ p' = .ok [] p' := by
  obtain ⟨hruns, hargs⟩ := freeTemps_suffice .reading
  constructor
  · intro s
    refine hruns 9 1 1 _ _ _ s ?_ ?_ ?_
    · exact Env.Named.nil.bind [⟨1⟩, ⟨3⟩] [.word 2, .word 4]
    · exact Env.Named.nil.bind [⟨3⟩, ⟨2⟩, ⟨1⟩] [.word 4, .word 7, .word 2]
    · change Env.AgreesOn [⟨3⟩, ⟨1⟩] _ _
      simp [Env.AgreesOn, Env.lookup]
  · obtain ⟨added, p', hadd, -, -, hagain⟩ := hargs ⟨0⟩ _ rfl
    obtain ⟨rfl, -⟩ := EStateM.Result.ok.inj ((Edit.addArgs_ok rfl).symm.trans hadd)
    exact ⟨p', hadd, hagain⟩

end MonadicIR
