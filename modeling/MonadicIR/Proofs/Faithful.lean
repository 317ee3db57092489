import MonadicIR.Proofs.Adequacy
import MonadicIR.Proofs.Equivalence
import MonadicIR.Proofs.Passes
import MonadicIR.Proofs.Roles

namespace MonadicIR

open Program Roles

/-- What the program meant that the work started from. -/
structure Standard where
  base : Meaning
  fits : List Ctor → Ctor → Prop
  /-- The references to top-levels that occur. -/
  ref : TopRef → Prop
  deepens : base.Deepens

namespace Standard

variable (std : Standard)

def meaning (roles : Roles) : Meaning := roles.meaning std.base std.fits

/-- The runs of code, by the roles of what it uses. -/
abbrev Runs (roles : Roles) (depth cost rank : Nat) (code : Code) (env : Env) (w : World)
    (e : Result) (w' : World) : Prop :=
  code.Runs (std.meaning roles) (.free std.fits) depth cost rank env w e w'

@[simp] theorem rank_meaning (roles : Roles) : (std.meaning roles).rank = roles.rank := rfl

theorem meaning_le {roles roles' : Roles} (h : roles.Le roles') :
    (std.meaning roles).Le (std.meaning roles') := Roles.meaning_le h

theorem meaning_deepens (roles : Roles) : (std.meaning roles).Deepens :=
  Roles.meaning_deepens std.deepens

end Standard

def Env.Covers (env : Env) (scope : List Temp) : Prop := ∀ x ∈ scope, ∃ v, env.lookup x = some v

/-- Whatever the first code does, the second does too, where the variables in scope have values and
no variable with a number from `n` on has one. -/
def Refines (std : Standard) (roles : Roles) (n : Nat) (scope : List Temp) (code code' : Code) :
    Prop :=
  ∀ ⦃roles'⦄, roles.Le roles' → ∀ ⦃depth cost rank env w e w'⦄, env.Below n → env.Covers scope →
    std.Runs roles' depth cost rank code env w e w' →
      std.Runs roles' depth cost rank code' env w e w'

namespace Refines

variable {std : Standard} {roles roles' : Roles} {n n' : Nat} {scope : List Temp}
  {code code' code'' : Code}

theorem refl (std : Standard) (roles : Roles) (n : Nat) (scope : List Temp) (code : Code) :
    Refines std roles n scope code code := fun _ _ _ _ _ _ _ _ _ _ _ h => h

theorem mono (h : Refines std roles n scope code code') (hroles : roles.Le roles') (hn : n' ≤ n) :
    Refines std roles' n' scope code code' :=
  fun _ hle _ _ _ _ _ _ _ hbelow hcovers hrun =>
    h (hroles.trans hle) (hbelow.mono hn) hcovers hrun

theorem trans (h : Refines std roles n scope code code')
    (h' : Refines std roles n scope code' code'') : Refines std roles n scope code code'' :=
  fun _ hle _ _ _ _ _ _ _ hbelow hcovers hrun =>
    h' hle hbelow hcovers (h hle hbelow hcovers hrun)

end Refines

namespace Env.Covers

theorem mono {env : Env} {scope scope' : List Temp} (h : env.Covers scope)
    (hsub : ∀ x ∈ scope', x ∈ scope) : env.Covers scope' := fun x hx => h x (hsub x hx)

theorem put {env : Env} {scope : List Temp} (h : env.Covers scope) (x : Temp) (v : Value) :
    (env.put x v).Covers (scope ++ named [x]) := by
  intro y hy
  rw [lookup_put]
  split
  · exact ⟨v, rfl⟩
  · rename_i hx
    rw [List.mem_append, mem_named, List.mem_singleton] at hy
    obtain hy | ⟨rfl, hw⟩ := hy
    · exact h y hy
    · exact absurd ⟨rfl, hw⟩ hx

theorem bind {env : Env} {scope vars : List Temp} {vals : List Value} (h : env.Covers scope)
    (hlen : vals.length = vars.length) : (env.bind vars vals).Covers (scope ++ named vars) := by
  induction vars generalizing env scope vals with
  | nil =>
    obtain rfl := List.length_eq_zero_iff.mp hlen
    simpa [named, Env.bind] using h
  | cons x vars ih =>
    cases vals with
    | nil => cases hlen
    | cons v vals =>
      have := ih (h.put x v) (Nat.succ.inj hlen)
      rwa [List.append_assoc, ← named_append] at this

end Env.Covers

section Entry

variable {params : List Temp} {args : List Value}

theorem Env.Covers.entry (h : params.length = args.length) :
    (Env.bind [] params args).Covers (named params) := by
  have hnil : Env.Covers [] [] := fun _ h => nomatch h
  simpa using hnil.bind h.symm

theorem Env.Below.entry {σ : Signature} (h : Binders σ [] params) (args : List Value) :
    (Env.bind [] params args).Below σ.temps := by
  have hnil : Env.Below [] σ.temps := fun _ _ h => nomatch h
  exact hnil.bind h.allocated args

end Entry

namespace Refines

variable {std : Standard} {roles : Roles} {n : Nat} {scope : List Temp} {code code' : Code}

theorem bind {vars : List Temp} (hvars : ∀ v ∈ named vars, v.index < n)
    (h : Refines std roles n (scope ++ named vars) code code') (t : Tail) :
    Refines std roles n scope (.bind vars t code) (.bind vars t code') := by
  intro roles' hle depth cost rank env w e w' hbelow hcovers hrun
  obtain ⟨hd, u, hhalt | ⟨vs, w1, left, hl, ht, hlen, hrest⟩⟩ := hrun
  · exact ⟨hd, u, .inl hhalt⟩
  · exact ⟨hd, u, .inr ⟨vs, w1, left, hl, ht, hlen,
      h hle (hbelow.bind hvars vs) (hcovers.bind hlen) hrest⟩⟩

theorem assert (h : Refines std roles n scope code code') (a : Atom) (ctor : Ctor) :
    Refines std roles n scope (.assert a ctor code) (.assert a ctor code') := by
  intro roles' hle depth cost rank env w e w' hbelow hcovers hrun
  obtain ⟨c, fields, left, ha, hc, hl, hrest⟩ := hrun
  exact ⟨c, fields, left, ha, hc, hl, h hle hbelow hcovers hrest⟩

end Refines

theorem Atom.Legal.exists_has {σ : Signature} {scope : List Temp} {env : Env}
    {tops : TopId → List Value → Prop} (hcovers : env.Covers scope)
    (htops : ∀ r, σ.top r → ∃ v, (Atom.top r).Has tops env v) {a : Atom} (h : a.Legal σ scope) :
    ∃ v, a.Has tops env v := by
  cases a with
  | temp t => exact hcovers t h
  | top r => exact htops r h
  | word | flag | external => exact ⟨_, rfl⟩

namespace Roles

variable (roles : Roles)

def withTemps (n : Nat) (h : roles.sig.temps ≤ n) : Roles :=
  { roles with sig := { roles.sig with
      temps := n
      temps_pos := Nat.lt_of_lt_of_le roles.sig.temps_pos h } }

/-- The roles after a block was added that takes so many arguments. -/
def addBlock (b : BlockId) (role : BlockRole) (rank slots : Nat) : Roles :=
  { roles with
    block := fun x => if x = b then some role else roles.block x
    rank := fun x => if x = b then rank else roles.rank x
    sig := { roles.sig with block := fun x => if x = b then some slots else roles.sig.block x } }

/-- The roles after a closure was added that stores so many fields. -/
def addClosure (k : ClosureId) (role : ClosureRole) (rank slots : Nat) : Roles :=
  { roles with
    closure := fun x => if x = k then some role else roles.closure x
    closureRank := fun x => if x = k then rank else roles.closureRank x
    sig := { roles.sig with
      closure := fun x => if x = k then some slots else roles.sig.closure x } }

variable {roles}

theorem addBlock_self (roles : Roles) (b : BlockId) (role : BlockRole) (rank slots : Nat) :
    (roles.addBlock b role rank slots).block b = some role := if_pos rfl

theorem addClosure_self (roles : Roles) (k : ClosureId) (role : ClosureRole) (rank slots : Nat) :
    (roles.addClosure k role rank slots).closure k = some role := if_pos rfl

theorem le_withTemps {n : Nat} (h : roles.sig.temps ≤ n) : roles.Le (roles.withTemps n h) :=
  ⟨id, id, fun _ => rfl, fun _ => rfl, ⟨id, id, id, id, h⟩⟩

theorem le_addBlock {b : BlockId} (hb : roles.block b = none) (hsig : roles.sig.block b = none)
    (role : BlockRole) (rank slots : Nat) : roles.Le (roles.addBlock b role rank slots) := by
  have hne {x r} (hx : roles.block x = some r) : x ≠ b := by
    rintro rfl
    simp [hb] at hx
  have hne' {x n} (hx : roles.sig.block x = some n) : x ≠ b := by
    rintro rfl
    simp [hsig] at hx
  exact ⟨fun hx => by simp [addBlock, hne hx, hx], id, fun hx => by simp [addBlock, hne hx],
    fun _ => rfl, ⟨fun hx => by simp [addBlock, hne' hx, hx], id, id, id, le_rfl⟩⟩

theorem le_addClosure {k : ClosureId} (hk : roles.closure k = none)
    (hsig : roles.sig.closure k = none) (role : ClosureRole) (rank slots : Nat) :
    roles.Le (roles.addClosure k role rank slots) := by
  have hne {x r} (hx : roles.closure x = some r) : x ≠ k := by
    rintro rfl
    simp [hk] at hx
  have hne' {x n} (hx : roles.sig.closure x = some n) : x ≠ k := by
    rintro rfl
    simp [hsig] at hx
  exact ⟨id, fun hx => by simp [addClosure, hne hx, hx], fun _ => rfl,
    fun hx => by simp [addClosure, hne hx],
    ⟨id, fun hx => by simp [addClosure, hne' hx, hx], id, id, le_rfl⟩⟩

end Roles

/-- The values of top-levels are told by the variables they define and by their tails. -/
theorem Program.HasTop.of_same {p q : Program} (h : ∀ (t : TopId) top, p.tops[t.index]? = some top →
    ∃ top', q.tops[t.index]? = some top' ∧ top'.lhs = top.lhs ∧ top'.tail = top.tail) {t : TopId}
    {vs : List Value} (ht : p.HasTop t vs) : q.HasTop t vs := by
  obtain ⟨height, ht⟩ := ht
  refine ⟨height, ?_⟩
  induction height generalizing t vs with
  | zero => exact ht
  | succ height ih =>
    obtain ⟨top, htop, hlen, hs⟩ := ht
    obtain ⟨top', htop', hlhs, htail⟩ := h t top htop
    exact ⟨top', htop', hlhs ▸ hlen, fun w => htail ▸ (hs w).mono (fun _ _ => ih) fun _ _ _ => id⟩

theorem Program.HasTop.of_tops {p q : Program} (h : q.tops = p.tops) {t : TopId} {vs : List Value}
    (ht : p.HasTop t vs) : q.HasTop t vs :=
  ht.of_same fun _ top htop => ⟨top, h ▸ htop, rfl, rfl⟩

/-- The role of a copy that is listed with its source. -/
def Origin.role? (b : BlockId) : Origin → Option BlockRole
  | source | known .. | shared .. => none
  | continuation _ => some (.handoff .continuation b)
  | entering arity _ => some (.handoff (.enter arity) b)

/-- A block with a legal body, which does what its role asks for. -/
structure Block.Fulfils (std : Standard) (roles : Roles) (b : BlockId) (block : Block) : Prop where
  legal : block.code.Legal roles.sig (named block.params)
  meets : ∀ ⦃roles'⦄, roles.Le roles' → block.Meets (std.meaning roles') std.fits b

structure Closure.Fulfils (std : Standard) (roles : Roles) (k : ClosureId) (closure : Closure) :
    Prop where
  legal : closure.tail.Legal roles.sig (named (closure.stored ++ closure.params))
  meets : ∀ ⦃roles'⦄, roles.Le roles' →
    closure.Meets (std.meaning roles') (roles.closureRank k) k

/-- Copies take as many arguments as their roles say, and have the rank of their source. -/
structure Roles.Coherent (roles : Roles) : Prop where
  handoff : ∀ ⦃d h b⦄, roles.block d = some (.handoff h b) → ∃ role n, roles.block b = some role ∧
    roles.sig.block b = some n ∧ roles.sig.block d = some (n + h.extras) ∧
      roles.rank d = roles.rank b

/-- The program has a definition for every role. Those blocks that are pending have no body yet. -/
structure Faithful (std : Standard) (roles : Roles) (pending : BlockId → Prop) (p : Program) :
    Prop where
  temps : roles.sig.temps = p.temps.size
  ctor : ∀ c, roles.sig.ctor c ↔ p.Declares c
  ref : ∀ ⦃r⦄, roles.sig.top r → std.ref r
  role : ∀ ⦃b n⦄, roles.sig.block b = some n → ∃ role, roles.block b = some role
  block : ∀ ⦃b role⦄, roles.block b = some role → ∃ block, p.blocks[b.index]? = some block ∧
    roles.sig.block b = some block.params.length ∧ Binders roles.sig [] block.params ∧
      (¬pending b → block.Fulfils std roles b)
  closureRole : ∀ ⦃k n⦄, roles.sig.closure k = some n → ∃ role, roles.closure k = some role
  closure : ∀ ⦃k role⦄, roles.closure k = some role → ∃ closure,
    p.closures[k.index]? = some closure ∧ roles.sig.closure k = some closure.stored.length ∧
      Binders roles.sig [] (closure.stored ++ closure.params) ∧ closure.Fulfils std roles k
  derived : ∀ ⦃b role block d⦄, roles.block b = some role → p.blocks[b.index]? = some block →
    d ∈ block.derived → ∃ copy, p.blocks[d.index]? = some copy ∧
      ∀ role', copy.origin.role? b = some role' → roles.block d = some role'
  coherent : roles.Coherent
  pure : p.PureTops
  top : ∀ t vs, std.base.top t vs → p.HasTop t vs
  /-- What is noted of blocks that never return is true. -/
  flags : ∀ ⦃b role block⦄, roles.block b = some role → p.blocks[b.index]? = some block →
    block.notes.neverReturns = true → ∀ ⦃roles'⦄, roles.Le roles' →
      ∀ ⦃depth cost args w e w'⦄, (std.meaning roles').jump depth cost b args w e w' → e = .halted

section Extend

variable {std : Standard} {roles roles' : Roles} {pending pending' : BlockId → Prop} {p : Program}

theorem Block.Fulfils.mono (h : roles.Le roles') {b : BlockId} {block : Block}
    (hb : block.Fulfils std roles b) : block.Fulfils std roles' b :=
  ⟨hb.legal.le h.sig, fun _ hle => hb.meets (h.trans hle)⟩

theorem Closure.Fulfils.mono (h : roles.Le roles') {k : ClosureId} {role : ClosureRole}
    (hrole : roles.closure k = some role) {closure : Closure} (hk : closure.Fulfils std roles k) :
    closure.Fulfils std roles' k := by
  refine ⟨hk.legal.mono h.sig fun _ => id, fun _ hle => ?_⟩
  rw [h.closureRank hrole]
  exact hk.meets (h.trans hle)

theorem Binders.le {σ τ : Signature} (h : σ.Le τ) {scope vars : List Temp}
    (hb : Binders σ scope vars) : Binders τ scope vars :=
  hb.mono h fun _ => .inl

namespace Faithful

variable (h : Faithful std roles pending p)

include h

variable {role : BlockRole} {k : ClosureId} {b : BlockId}

theorem lt_of_role (hb : roles.block b = some role) :
    b.index < p.blocks.size := by
  obtain ⟨block, hblock, -⟩ := h.block hb
  exact (Array.getElem?_eq_some_iff.mp hblock).1

theorem lt_of_closureRole {role : ClosureRole} (hk : roles.closure k = some role) :
    k.index < p.closures.size := by
  obtain ⟨closure, hclosure, -⟩ := h.closure hk
  exact (Array.getElem?_eq_some_iff.mp hclosure).1

theorem newBlock :
    roles.block ⟨p.blocks.size⟩ = none ∧ roles.sig.block ⟨p.blocks.size⟩ = none := by
  have hnone : roles.block ⟨p.blocks.size⟩ = none :=
    Option.eq_none_iff_forall_ne_some.mpr fun _ hb => Nat.lt_irrefl _ (h.lt_of_role hb)
  refine ⟨hnone, Option.eq_none_iff_forall_ne_some.mpr fun n hn => ?_⟩
  obtain ⟨role, hrole⟩ := h.role hn
  simp [hnone] at hrole

theorem newClosure :
    roles.closure ⟨p.closures.size⟩ = none ∧ roles.sig.closure ⟨p.closures.size⟩ = none := by
  have hnone : roles.closure ⟨p.closures.size⟩ = none :=
    Option.eq_none_iff_forall_ne_some.mpr fun _ hk => Nat.lt_irrefl _ (h.lt_of_closureRole hk)
  refine ⟨hnone, Option.eq_none_iff_forall_ne_some.mpr fun n hn => ?_⟩
  obtain ⟨role, hrole⟩ := h.closureRole hn
  simp [hnone] at hrole

theorem block_le (hle : roles.Le roles') (hb : roles.block b = some role) :
    ∃ block, p.blocks[b.index]? = some block ∧
      roles'.sig.block b = some block.params.length ∧ Binders roles'.sig [] block.params ∧
        (¬pending b → block.Fulfils std roles' b) := by
  obtain ⟨block, hblock, hlen, hparams, hful⟩ := h.block hb
  exact ⟨block, hblock, hle.sig.block hlen, hparams.le hle.sig, fun hp => (hful hp).mono hle⟩

theorem closure_le (hle : roles.Le roles') {role : ClosureRole} (hk : roles.closure k = some role) :
    ∃ closure,
      p.closures[k.index]? = some closure ∧ roles'.sig.closure k = some closure.stored.length ∧
        Binders roles'.sig [] (closure.stored ++ closure.params) ∧
          closure.Fulfils std roles' k := by
  obtain ⟨closure, hclosure, hlen, hparams, hful⟩ := h.closure hk
  exact ⟨closure, hclosure, hle.sig.closure hlen, hparams.le hle.sig, hful.mono hle hk⟩

theorem grow {m : Temps} (hm : roles.sig.temps ≤ m.size) :
    Faithful std (roles.withTemps m.size hm) pending { p with temps := m } :=
  { h with
    temps := rfl
    block := fun _ _ => h.block_le (le_withTemps hm)
    closure := fun _ _ => h.closure_le (le_withTemps hm)
    coherent := ⟨h.coherent.handoff⟩
    top := fun t vs ht => (h.top t vs ht).of_tops (by rfl)
    flags := fun _ _ _ hb hblock hn _ hle => h.flags hb hblock hn ((le_withTemps hm).trans hle) }

theorem coherent_addBlock {rank slots : Nat}
    (hrole : ∀ ⦃hand b⦄, role = .handoff hand b → ∃ r n, roles.block b = some r ∧
      roles.sig.block b = some n ∧ slots = n + hand.extras ∧ rank = roles.rank b) :
    (roles.addBlock ⟨p.blocks.size⟩ role rank slots).Coherent := by
  have hle := Roles.le_addBlock h.newBlock.1 h.newBlock.2 role rank slots
  refine ⟨fun d hand b hd => ?_⟩
  by_cases hnew : d = ⟨p.blocks.size⟩
  · subst hnew
    simp only [Roles.addBlock, if_true, Option.some.injEq] at hd
    obtain ⟨r, n, hr, hn, rfl, rfl⟩ := hrole hd
    refine ⟨r, n, hle.block hr, hle.sig.block hn, by simp [Roles.addBlock], ?_⟩
    rw [hle.rank hr]
    simp [Roles.addBlock]
  · simp only [Roles.addBlock, if_neg hnew] at hd
    obtain ⟨r, n, hr, hn, hdn, hrank⟩ := h.coherent.handoff hd
    refine ⟨r, n, hle.block hr, hle.sig.block hn, hle.sig.block hdn, ?_⟩
    rw [hle.rank hr, hle.rank hd, hrank]

theorem addBlock {block : Block} {rank : Nat} (hpending : ∀ x, ¬pending' x → ¬pending x)
    (hparams : Binders roles.sig [] block.params)
    (hful : ¬pending' ⟨p.blocks.size⟩ →
      block.Fulfils std (roles.addBlock ⟨p.blocks.size⟩ role rank block.params.length)
        ⟨p.blocks.size⟩)
    (hderived : block.derived = []) (hnotes : block.notes.neverReturns = false)
    (hrole : ∀ ⦃hand b⦄, role = .handoff hand b → ∃ r n, roles.block b = some r ∧
      roles.sig.block b = some n ∧ block.params.length = n + hand.extras ∧ rank = roles.rank b) :
    Faithful std (roles.addBlock ⟨p.blocks.size⟩ role rank block.params.length) pending'
      (p.addBlock block).2 := by
  have hle := Roles.le_addBlock h.newBlock.1 h.newBlock.2 role rank block.params.length
  have hold {b : BlockId} {x : Block} (hb : p.blocks[b.index]? = some x) :
      (p.blocks.push block)[b.index]? = some x := by
    have := (Array.getElem?_eq_some_iff.mp hb).1
    rw [Array.getElem?_push, if_neg (by omega), hb]
  have hcases {b : BlockId} {r : BlockRole} (hb : (roles.addBlock ⟨p.blocks.size⟩ role rank
      block.params.length).block b = some r) :
      b = ⟨p.blocks.size⟩ ∨ b ≠ ⟨p.blocks.size⟩ ∧ roles.block b = some r := by
    by_cases hnew : b = ⟨p.blocks.size⟩
    · exact .inl hnew
    · exact .inr ⟨hnew, by simpa [Roles.addBlock, hnew] using hb⟩
  refine { h with
    role := ?role, block := ?block, derived := ?derived, flags := ?flags
    closure := fun _ _ => h.closure_le hle
    coherent := h.coherent_addBlock hrole
    top := fun t vs ht => (h.top t vs ht).of_tops (by rfl) }
  case role =>
    intro b n hn
    by_cases hnew : b = ⟨p.blocks.size⟩
    · exact ⟨role, by simp [Roles.addBlock, hnew]⟩
    · obtain ⟨r, hr⟩ := h.role (b := b) (n := n) (by simpa [Roles.addBlock, hnew] using hn)
      exact ⟨r, hle.block hr⟩
  case block =>
    intro b r hb
    obtain rfl | ⟨-, hb⟩ := hcases hb
    · exact ⟨block, by simp [Program.addBlock], by simp [Roles.addBlock], hparams.le hle.sig, hful⟩
    · obtain ⟨x, hx, hlen, hxparams, hxful⟩ := h.block_le hle hb
      exact ⟨x, hold hx, hlen, hxparams, fun hp => hxful (hpending b hp)⟩
  case derived =>
    intro b r x d hb hx hd
    obtain rfl | ⟨hne, hb⟩ := hcases hb
    · simp only [Program.addBlock, Array.getElem?_push_size, Option.some.injEq] at hx
      subst hx
      simp [hderived] at hd
    · obtain ⟨y, hy, -⟩ := h.block hb
      obtain rfl := Option.some.inj ((hold hy).symm.trans hx)
      obtain ⟨copy, hcopy, hreg⟩ := h.derived hb hy hd
      exact ⟨copy, hold hcopy, fun role' hrole' => hle.block (hreg role' hrole')⟩
  case flags =>
    intro b r x hb hx hn roles' hle'
    obtain rfl | ⟨hne, hb⟩ := hcases hb
    · simp only [Program.addBlock, Array.getElem?_push_size, Option.some.injEq] at hx
      subst hx
      simp [hnotes] at hn
    · obtain ⟨y, hy, -⟩ := h.block hb
      obtain rfl := Option.some.inj ((hold hy).symm.trans hx)
      exact h.flags hb hy hn (hle.trans hle')

theorem setBlock {block block' : Block} (hblock : p.blocks[b.index]? = some block)
    (hpending : ∀ x, x ≠ b → ¬pending' x → ¬pending x) (hparams : block'.params = block.params)
    (hnotes : block'.notes = block.notes) (horigin : block'.origin = block.origin)
    (hful : ∀ ⦃role⦄, roles.block b = some role → ¬pending' b → block'.Fulfils std roles b)
    (hderived : ∀ d ∈ block'.derived, d ∈ block.derived ∨ ∃ copy, p.blocks[d.index]? = some copy ∧
      ∀ role', copy.origin.role? b = some role' → roles.block d = some role') :
    Faithful std roles pending' (p.setBlock b block') := by
  have hlookup := getElem?_setBlock hblock block'
  have hcopy {x d : BlockId} (hd : ∃ copy, p.blocks[d.index]? = some copy ∧
      ∀ role', copy.origin.role? x = some role' → roles.block d = some role') :
      ∃ copy, (p.setBlock b block').blocks[d.index]? = some copy ∧
        ∀ role', copy.origin.role? x = some role' → roles.block d = some role' := by
    obtain ⟨copy, hcopy, hreg⟩ := hd
    rw [hlookup]
    split
    · rename_i hdb
      subst hdb
      obtain rfl := Option.mem_unique hblock hcopy
      exact ⟨block', rfl, horigin ▸ hreg⟩
    · exact ⟨copy, hcopy, hreg⟩
  refine { h with
    block := ?block, derived := ?derived, flags := ?flags
    top := fun t vs ht => (h.top t vs ht).of_tops (by rfl) }
  case block =>
    intro x r hx
    obtain ⟨y, hy, hlen, hyparams, hyful⟩ := h.block hx
    rw [hlookup]
    split
    · rename_i hxb
      subst hxb
      obtain rfl := Option.mem_unique hblock hy
      exact ⟨block', rfl, hparams ▸ hlen, hparams ▸ hyparams, hful hx⟩
    · rename_i hne
      exact ⟨y, hy, hlen, hyparams, fun hp => hyful (hpending x hne hp)⟩
  case derived =>
    intro x r y d hx hy hd
    rw [hlookup] at hy
    split at hy
    · rename_i hxb
      subst hxb
      obtain rfl := Option.some.inj hy
      exact hcopy ((hderived d hd).elim (h.derived hx hblock) id)
    · exact hcopy (h.derived hx hy hd)
  case flags =>
    intro x r y hx hy hn
    rw [hlookup] at hy
    split at hy
    · rename_i hxb
      subst hxb
      obtain rfl := Option.some.inj hy
      exact h.flags hx hblock (hnotes ▸ hn)
    · exact h.flags hx hy hn

theorem setClosure {closure closure' : Closure} (hclosure : p.closures[k.index]? = some closure)
    (hstored : closure'.stored = closure.stored) (hparams : closure'.params = closure.params)
    (hful : ∀ ⦃role⦄, roles.closure k = some role → closure'.Fulfils std roles k) :
    Faithful std roles pending (p.setClosure k closure') := by
  have hlookup := getElem?_setClosure hclosure closure'
  refine { h with
    closure := fun x r hx => ?_
    top := fun t vs ht => (h.top t vs ht).of_tops (by rfl) }
  obtain ⟨y, hy, hlen, hyparams, hyful⟩ := h.closure hx
  rw [hlookup]
  split
  · rename_i hxk
    subst hxk
    obtain rfl := Option.mem_unique hclosure hy
    exact ⟨closure', rfl, hstored ▸ hlen, hstored ▸ hparams ▸ hyparams, hful hx⟩
  · exact ⟨y, hy, hlen, hyparams, hyful⟩

theorem addClosure {closure : Closure} {role : ClosureRole} {rank : Nat}
    (hparams : Binders roles.sig [] (closure.stored ++ closure.params))
    (hful : closure.Fulfils std (roles.addClosure ⟨p.closures.size⟩ role rank closure.stored.length)
      ⟨p.closures.size⟩) :
    Faithful std (roles.addClosure ⟨p.closures.size⟩ role rank closure.stored.length) pending
      (p.addClosure closure).2 := by
  have hle := Roles.le_addClosure h.newClosure.1 h.newClosure.2 role rank closure.stored.length
  refine { h with
    closureRole := ?role, closure := ?closure
    block := fun _ _ => h.block_le hle
    coherent := ⟨h.coherent.handoff⟩
    top := fun t vs ht => (h.top t vs ht).of_tops (by rfl)
    flags := fun _ _ _ hb hblock hn _ hle' => h.flags hb hblock hn (hle.trans hle') }
  case role =>
    intro k n hn
    by_cases hnew : k = ⟨p.closures.size⟩
    · exact ⟨role, by simp [Roles.addClosure, hnew]⟩
    · obtain ⟨r, hr⟩ := h.closureRole (k := k) (n := n) (by simpa [Roles.addClosure, hnew] using hn)
      exact ⟨r, hle.closure hr⟩
  case closure =>
    intro k r hk
    by_cases hnew : k = ⟨p.closures.size⟩
    · subst hnew
      exact ⟨closure, by simp [Program.addClosure], by simp [Roles.addClosure],
        hparams.le hle.sig, hful⟩
    · obtain ⟨x, hx, hrest⟩ := h.closure_le hle (by simpa [Roles.addClosure, hnew] using hk)
      have := (Array.getElem?_eq_some_iff.mp hx).1
      exact ⟨x, by rw [Program.addClosure, Array.getElem?_push, if_neg (by omega), hx], hrest⟩

end Faithful

end Extend

section Realise

variable {std : Standard} {roles : Roles} {p : Program}

namespace Faithful

theorem realises (h : Faithful std roles (fun _ => False) p) :
    Realises p (std.meaning roles) std.fits roles.closureRank where
  top := h.top
  alloc _ _ _ := id
  block depth cost b args w e w' hj := by
    obtain ⟨role, hrole⟩ := Roles.Does.block_role hj
    obtain ⟨block, hblock, -, -, hful⟩ := h.block hrole
    exact ⟨block, hblock, (hful id).meets (.refl roles)⟩
  closure room cost v args w e w' he := by
    cases he with
    | originalClosure hrole | forward hrole =>
      obtain ⟨closure, hclosure, -, -, hful⟩ := h.closure hrole
      exact ⟨_, _, closure, rfl, hclosure, hful.meets (.refl roles)⟩

end Faithful

end Realise

/-- The second program has the definitions of the first, but for copies that were added and noted. -/
structure Program.Keeps (p p' : Program) : Prop where
  block : ∀ ⦃b : BlockId⦄ ⦃block : Block⦄, p.blocks[b.index]? = some block →
    ∃ derived, p'.blocks[b.index]? = some { block with derived }
  closure : ∀ ⦃k : ClosureId⦄ ⦃closure : Closure⦄, p.closures[k.index]? = some closure →
    ∃ derived, p'.closures[k.index]? = some { closure with derived }
  tops : p'.tops = p.tops
  datatypes : p'.datatypes = p.datatypes

namespace Program.Keeps

theorem refl (p : Program) : p.Keeps p :=
  ⟨fun _ _ h => ⟨_, h⟩, fun _ _ h => ⟨_, h⟩, rfl, rfl⟩

theorem trans {p q r : Program} (h : p.Keeps q) (h' : q.Keeps r) : p.Keeps r := by
  refine ⟨fun b block hb => ?_, fun k closure hk => ?_, h'.tops.trans h.tops,
    h'.datatypes.trans h.datatypes⟩
  · obtain ⟨derived, hq⟩ := h.block hb
    obtain ⟨derived', hr⟩ := h'.block hq
    exact ⟨derived', hr⟩
  · obtain ⟨derived, hq⟩ := h.closure hk
    obtain ⟨derived', hr⟩ := h'.closure hq
    exact ⟨derived', hr⟩

theorem withTemps (p : Program) (m : Temps) : p.Keeps { p with temps := m } :=
  ⟨fun _ _ h => ⟨_, h⟩, fun _ _ h => ⟨_, h⟩, rfl, rfl⟩

theorem addBlock (p : Program) (block : Block) : p.Keeps (p.addBlock block).2 := by
  refine ⟨fun b x hb => ⟨x.derived, ?_⟩, fun _ _ h => ⟨_, h⟩, rfl, rfl⟩
  have := (Array.getElem?_eq_some_iff.mp hb).1
  rw [Program.addBlock, Array.getElem?_push, if_neg (by omega), hb]

theorem addClosure (p : Program) (closure : Closure) : p.Keeps (p.addClosure closure).2 := by
  refine ⟨fun _ _ h => ⟨_, h⟩, fun k x hk => ⟨x.derived, ?_⟩, rfl, rfl⟩
  have := (Array.getElem?_eq_some_iff.mp hk).1
  rw [Program.addClosure, Array.getElem?_push, if_neg (by omega), hk]

theorem setBlock {p : Program} {b : BlockId} {block : Block} (hb : p.blocks[b.index]? = some block)
    (derived : List BlockId) : p.Keeps (p.setBlock b { block with derived }) := by
  refine ⟨fun x old hx => ?_, fun _ _ h => ⟨_, h⟩, rfl, rfl⟩
  rw [getElem?_setBlock hb]
  split
  · rename_i hxb
    obtain rfl := Option.mem_unique hb (hxb ▸ hx)
    exact ⟨derived, rfl⟩
  · exact ⟨_, hx⟩

theorem setNew {p p' : Program} (h : p.Keeps p') {b : BlockId} {block : Block}
    (hb : p'.blocks[b.index]? = some block) (hnew : p.blocks[b.index]? = none) (block' : Block) :
    p.Keeps (p'.setBlock b block') := by
  refine ⟨fun x old hx => ?_, h.closure, h.tops, h.datatypes⟩
  rw [getElem?_setBlock hb, if_neg]
  · exact h.block hx
  · rintro rfl
    simp [hnew] at hx

end Program.Keeps

/-- The second program is faithful, has the definitions of the first, and may have more of them. -/
structure Progress (std : Standard) (pending : BlockId → Prop) (roles : Roles) (p : Program)
    (roles' : Roles) (p' : Program) : Prop where
  le : roles.Le roles'
  keeps : p.Keeps p'
  faithful : Faithful std roles' pending p'

section Progress

variable {std : Standard} {roles roles' : Roles} {pending pending' : BlockId → Prop}
  {p p' : Program}

theorem Progress.trans {roles'' : Roles} {p'' : Program}
    (h : Progress std pending roles p roles' p')
    (h' : Progress std pending' roles' p' roles'' p'') :
      Progress std pending' roles p roles'' p'' :=
  ⟨h.le.trans h'.le, h.keeps.trans h'.keeps, h'.faithful⟩

namespace Faithful

theorem stay (h : Faithful std roles pending p) : Progress std pending roles p roles p :=
  ⟨.refl roles, .refl p, h⟩

theorem withTemps (h : Faithful std roles pending p) {m : Temps} (hm : p.temps.size ≤ m.size) :
    Progress std pending roles p (roles.withTemps m.size (h.temps ▸ hm)) { p with temps := m } :=
  ⟨le_withTemps _, .withTemps p m, h.grow _⟩

theorem addDerivedBlock (h : Faithful std roles pending p) (pending' : BlockId → Prop)
    (role : BlockRole) (rank : Nat) {source d : BlockId} {block : Block} {r : BlockRole}
    (hadd : Edit.addDerivedBlock source block p = .ok d p')
    (hsource : roles.block source = some r) (hpending : ∀ x, ¬pending' x → ¬pending x)
    (hparams : Binders roles.sig [] block.params)
    (hful : ¬pending' ⟨p.blocks.size⟩ → block.Fulfils std
      (roles.addBlock ⟨p.blocks.size⟩ role rank block.params.length) ⟨p.blocks.size⟩)
    (hderived : block.derived = []) (hnotes : block.notes.neverReturns = false)
    (horigin : ∀ role', block.origin.role? source = some role' → role = role')
    (hrole : ∀ ⦃hand b⦄, role = .handoff hand b → ∃ r n, roles.block b = some r ∧
      roles.sig.block b = some n ∧ block.params.length = n + hand.extras ∧ rank = roles.rank b) :
    d = ⟨p.blocks.size⟩ ∧ p'.blocks[p.blocks.size]? = some block ∧ Progress std pending' roles p
      (roles.addBlock ⟨p.blocks.size⟩ role rank block.params.length) p' := by
  simp only [Edit.addDerivedBlock, bind_ok_iff, Edit.addBlock, Edit.update_eq_ok_iff,
    Edit.modifyBlock_eq_ok_iff, pure_ok_iff, exists_unit] at hadd
  obtain ⟨_, p1, hp1, p2, ⟨old, hold, rfl⟩, rfl, rfl⟩ := hadd
  obtain ⟨rfl, rfl⟩ := Prod.mk.inj hp1
  have hadded := h.addBlock hpending hparams hful hderived hnotes hrole
  have hle := Roles.le_addBlock h.newBlock.1 h.newBlock.2 role rank block.params.length
  have hne : (⟨p.blocks.size⟩ : BlockId) ≠ source := by
    rintro rfl
    simp [h.newBlock.1] at hsource
  refine ⟨rfl, ?_, hle, (Program.Keeps.addBlock p block).trans (.setBlock hold _), ?_⟩
  · have := Program.getElem?_setBlock hold { old with derived := old.derived ++ [⟨p.blocks.size⟩] }
      ⟨p.blocks.size⟩
    rw [if_neg hne] at this
    exact this.trans (by simp)
  refine hadded.setBlock hold (fun _ _ => id) rfl rfl rfl (fun r' hr' hnp => ?_) fun x hx => ?_
  · obtain ⟨_, hold', -, -, hful'⟩ := hadded.block hr'
    obtain rfl := Option.mem_unique hold hold'
    exact ⟨(hful' hnp).legal, (hful' hnp).meets⟩
  · obtain hx | hx := List.mem_append.mp hx
    · exact .inl hx
    · obtain rfl := List.mem_singleton.mp hx
      refine .inr ⟨block, by simp [Program.addBlock], fun role' hrole' => ?_⟩
      simp [Roles.addBlock, horigin role' hrole']

end Faithful

end Progress

namespace Edit

variable {p p' : Program}

theorem freshParam_ok {t u : Temp} (h : freshParam t p = .ok u p') :
    u = ⟨p.temps.size⟩ ∧ ∃ m, p' = { p with temps := m } ∧ m.size = p.temps.size + 1 := by
  unfold freshParam at h
  split at h
  · simp only [fresh, update_eq_ok_iff, Temps.fresh, Temps.freshTyped, Prod.mk.injEq] at h
    obtain ⟨rfl, rfl⟩ := h
    exact ⟨rfl, _, rfl, by simp [Temps.size]⟩
  · rename_i ht
    simp only [freshLike, update_eq_ok_iff, Temps.freshLike, ht, Bool.false_eq_true, if_false,
      Temps.freshTyped, Prod.mk.injEq] at h
    obtain ⟨rfl, rfl⟩ := h
    exact ⟨rfl, _, rfl, by simp [Temps.size]⟩

theorem freshParams_ok {ts us : List Temp} (h : freshParams ts p = .ok us p') :
    ∃ m, p' = { p with temps := m } ∧ Fresh p.temps.size ts us m.size := by
  induction ts generalizing p us with
  | nil =>
    simp only [freshParams, pure_ok_iff] at h
    obtain ⟨rfl, rfl⟩ := h
    exact ⟨_, rfl, .nil⟩
  | cons t ts ih =>
    simp only [freshParams, bind_ok_iff, pure_ok_iff] at h
    obtain ⟨u, p1, hu, us, p2, hus, rfl, rfl⟩ := h
    obtain ⟨rfl, m1, rfl, hm1⟩ := freshParam_ok hu
    obtain ⟨m, rfl, hm⟩ := ih hus
    exact ⟨m, rfl, .cons (hm1 ▸ hm)⟩

theorem freshN_fresh (m : Temps) (n : Nat) :
    Fresh m.size (m.freshN n).1 (m.freshN n).1 (m.freshN n).2.size ∧ (m.freshN n).1.length = n ∧
      ∀ u ∈ (m.freshN n).1, m.size ≤ u.index := by
  induction n generalizing m with
  | zero => exact ⟨.nil, rfl, by simp [Temps.freshN]⟩
  | succ n ih =>
    obtain ⟨hfresh, hlen, hle⟩ := ih (m.fresh).2
    have hsize : (m.fresh).2.size = m.size + 1 := by
      simp [Temps.fresh, Temps.freshTyped, Temps.size]
    refine ⟨.cons (hsize ▸ hfresh), by simp [Temps.freshN, hlen], fun u hu => ?_⟩
    obtain rfl | hu := List.mem_cons.mp hu
    · exact le_rfl
    · have := hle u hu
      omega

theorem freshN_ok {n : Nat} {us : List Temp} (h : freshN n p = .ok us p') :
    ∃ m, p' = { p with temps := m } ∧ Fresh p.temps.size us us m.size ∧ us.length = n ∧
      ∀ u ∈ us, p.temps.size ≤ u.index := by
  simp only [freshN, update_eq_ok_iff, Prod.mk.injEq] at h
  obtain ⟨rfl, rfl⟩ := h
  exact ⟨_, rfl, freshN_fresh p.temps n⟩

theorem freshLikeAll_ok {ts us : List Temp} (h : freshLikeAll ts p = .ok us p') :
    ∃ m, p' = { p with temps := m } ∧ Fresh p.temps.size ts us m.size := by
  simp only [freshLikeAll, update_eq_ok_iff, Prod.mk.injEq] at h
  obtain ⟨rfl, rfl⟩ := h
  exact ⟨_, rfl, p.temps.freshLikeAll_fresh ts⟩

theorem fresh_ok {u : Temp} (h : fresh p = .ok u p') :
    u = ⟨p.temps.size⟩ ∧ ∃ m, p' = { p with temps := m } ∧ m.size = p.temps.size + 1 := by
  simp only [fresh, update_eq_ok_iff, Temps.fresh, Temps.freshTyped, Prod.mk.injEq] at h
  obtain ⟨rfl, rfl⟩ := h
  exact ⟨rfl, _, rfl, by simp [Temps.size]⟩

theorem copyFresh_ok {code copy : Code} {s s' : Subst}
    (h : copyFresh code s p = .ok (copy, s') p') : copy = (code.copyFresh p.temps s).1 ∧
      p' = { p with temps := (code.copyFresh p.temps s).2.1 } := by
  simp only [copyFresh, update_eq_ok_iff, Prod.mk.injEq] at h
  exact ⟨h.1.1.symm, h.2.symm⟩

end Edit

end MonadicIR
