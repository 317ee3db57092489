import MonadicIR.Optimiser.Handoff
import MonadicIR.Proofs.Renaming

namespace MonadicIR

inductive BlockRole where
  | original
  /-- The source, with its result handed on. -/
  | handoff (h : Handoff) (source : BlockId)
  /-- Code of its own, which picks a call. -/
  | fork (params : List Temp) (code : Code)

inductive ClosureRole where
  | original
  /-- Makes a call. -/
  | forward (stored params : List Temp) (call : Call)

structure Roles where
  block : BlockId → Option BlockRole
  closure : ClosureId → Option ClosureRole
  rank : BlockId → Nat
  closureRank : ClosureId → Nat
  sig : Signature

/-- The second roles add definitions to the first. -/
structure Roles.Le (roles roles' : Roles) : Prop where
  block : ∀ {b role}, roles.block b = some role → roles'.block b = some role
  closure : ∀ {k role}, roles.closure k = some role → roles'.closure k = some role
  rank : ∀ {b role}, roles.block b = some role → roles'.rank b = roles.rank b
  closureRank : ∀ {k role}, roles.closure k = some role → roles'.closureRank k = roles.closureRank k
  sig : roles.sig.Le roles'.sig

namespace Roles.Le

theorem refl (roles : Roles) : roles.Le roles :=
  ⟨id, id, fun _ => rfl, fun _ => rfl, .refl _⟩

theorem trans {r1 r2 r3 : Roles} (h : r1.Le r2) (h' : r2.Le r3) : r1.Le r3 :=
  ⟨h'.block ∘ h.block, h'.closure ∘ h.closure,
    fun hb => (h'.rank (h.block hb)).trans (h.rank hb),
    fun hk => (h'.closureRank (h.closure hk)).trans (h.closureRank hk), h.sig.trans h'.sig⟩

end Roles.Le

/-- What is entered once `v` was returned, and with which arguments. -/
def Handoff.Hands (extras : List Value) (v f : Value) (given : List Value) : Handoff → Prop
  | continuation => extras = [f] ∧ given = [v]
  | enter _ => f = v ∧ given = extras

/-- The call that the code picks, if it does nothing else. -/
def Code.Picks (tops : TopId → List Value → Prop) (fits : List Ctor → Ctor → Prop) (env : Env) :
    Code → Call → Prop
  | branch test yes no, c => ∃ b, test.Has tops env (.flag b) ∧ c = if b then yes else no
  | switch a alts, c => ∃ ctor fields, a.Has tops env (.data ctor fields) ∧
      alts.select ctor = some c ∧ fits (alts.arms.map Arm.ctor) ctor
  | done _, _ | bind .., _ | assert .., _ => False

/-- What can be run: a block at some depth, or a value with some room. -/
inductive Callee where
  | block (depth : Nat) (b : BlockId)
  | value (room : Nat) (v : Value)

def Callee.deeper : Callee → Callee
  | block depth b => block (depth + 1) b
  | value room v => value (room + 1) v

namespace Roles

section Meaning

variable (base : Meaning) (fits : List Ctor → Ctor → Prop) (roles : Roles)

/-- What blocks and values do. -/
inductive Does : Callee → Nat → List Value → World → Result → World → Prop
  | original {depth cost b args w e w'} (hb : roles.block b = some .original)
      (h : base.jump depth cost b args w e w') : Does (.block depth b) cost args w e w'
  | handoff {depth cost n n' b h source args extras v f given w w1 e w'}
      (hb : roles.block b = some (.handoff h source)) (hextras : extras.length = h.extras)
      (hands : h.Hands extras v f given)
      (hrun : Does (.block depth source) n args w (.returned [v]) w1)
      (hgiven : Does (.value (depth + 2) f) n' given w1 e w') (hcost : n + n' ≤ cost) :
      Does (.block (depth + 1) b) cost (args ++ extras) w e w'
  | handoffHalts {depth cost n b h source args extras w w'}
      (hb : roles.block b = some (.handoff h source)) (hextras : extras.length = h.extras)
      (hrun : Does (.block depth source) n args w .halted w') (hcost : n ≤ cost) :
      Does (.block (depth + 1) b) cost (args ++ extras) w .halted w'
  | fork {depth cost n b params code args c vs w e w'}
      (hb : roles.block b = some (.fork params code)) (hlen : params.length = args.length)
      (hpick : code.Picks base.top fits (Env.bind [] params args) c)
      (hvs : Atom.HasAll base.top (Env.bind [] params args) c.args vs)
      (h : Does (.block depth c.target) n vs w e w') (hcost : n ≤ cost) :
      Does (.block depth b) cost args w e w'
  | originalClosure {room cost k stored args w e w'} (hk : roles.closure k = some .original)
      (h : base.enter room cost (.closure k stored) args w e w') :
      Does (.value room (.closure k stored)) cost args w e w'
  | forward {depth cost k fields params call stored args vs w e w'}
      (hk : roles.closure k = some (.forward fields params call))
      (hstored : fields.length = stored.length) (hargs : params.length = args.length)
      (hvs : Atom.HasAll base.top (Env.bind [] (fields ++ params) (stored ++ args)) call.args vs)
      (h : Does (.block depth call.target) cost vs w e w') :
      Does (.value (depth + 1) (.closure k stored)) cost args w e w'

/-- What references stand for, by the roles of definitions. -/
def meaning : Meaning where
  top := base.top
  alloc := Allocates
  jump depth cost b := roles.Does base fits (.block depth b) cost
  enter room cost v := roles.Does base fits (.value room v) cost
  rank := roles.rank

end Meaning

variable {base : Meaning} {fits : List Ctor → Ctor → Prop} {roles roles' : Roles}
  {args : List Value} {w w' : World} {e : Result}

theorem Does.mono (h : roles.Le roles') {x : Callee} {cost : Nat}
    (hx : roles.Does base fits x cost args w e w') :
    roles'.Does base fits x cost args w e w' := by
  induction hx with
  | original hb hj => exact .original (h.block hb) hj
  | handoff hb hextras hands _ _ hcost ih ih' =>
    exact .handoff (h.block hb) hextras hands ih ih' hcost
  | handoffHalts hb hextras _ hcost ih => exact .handoffHalts (h.block hb) hextras ih hcost
  | fork hb hlen hpick hvs _ hcost ih => exact .fork (h.block hb) hlen hpick hvs ih hcost
  | originalClosure hk he => exact .originalClosure (h.closure hk) he
  | forward hk hstored hargs hvs _ ih => exact .forward (h.closure hk) hstored hargs hvs ih

theorem Does.block_role {depth cost : Nat} {b : BlockId}
    (h : roles.Does base fits (.block depth b) cost args w e w') :
    ∃ role, roles.block b = some role := by
  cases h with
  | original hb | handoff hb | handoffHalts hb | fork hb => exact ⟨_, hb⟩

theorem meaning_le (h : roles.Le roles') :
    (roles.meaning base fits).Le (roles'.meaning base fits) := by
  refine ⟨id, id, fun hj => hj.mono h, fun he => he.mono h, fun hj => ?_⟩
  obtain ⟨role, hrole⟩ := Does.block_role hj
  exact h.rank hrole

theorem Does.deeper (h : base.Deepens) {x : Callee} {cost : Nat}
    (hx : roles.Does base fits x cost args w e w') :
    roles.Does base fits x.deeper cost args w e w' := by
  induction hx with
  | original hb hj => exact .original hb (h.jump hj)
  | handoff hb hextras hands _ _ hcost ih ih' => exact .handoff hb hextras hands ih ih' hcost
  | handoffHalts hb hextras _ hcost ih => exact .handoffHalts hb hextras ih hcost
  | fork hb hlen hpick hvs _ hcost ih => exact .fork hb hlen hpick hvs ih hcost
  | originalClosure hk he => exact .originalClosure hk (h.enter he)
  | forward hk hstored hargs hvs _ ih => exact .forward hk hstored hargs hvs ih

theorem meaning_deepens (h : base.Deepens) : (roles.meaning base fits).Deepens :=
  ⟨fun hj => hj.deeper h, fun he => he.deeper h⟩

end Roles

end MonadicIR
