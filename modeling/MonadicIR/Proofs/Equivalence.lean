import MonadicIR.Alpha
import MonadicIR.Proofs.PruningRuns

namespace MonadicIR

open Program List

namespace Tail

def ctors : Tail → List Ctor
  | data ctor _ | sel ctor _ _ => [ctor]
  | _ => []

/-- Sends calls and allocations to other definitions. -/
def retarget (f : BlockId → BlockId) (g : ClosureId → ClosureId) : Tail → Tail
  | call c => call ⟨f c.target, c.args⟩
  | closure k args => closure (g k) args
  | t => t

theorem retarget_id (t : Tail) : t.retarget id id = t := by cases t <;> rfl

theorem ctors_retarget (f : BlockId → BlockId) (g : ClosureId → ClosureId) (t : Tail) :
    (t.retarget f g).ctors = t.ctors := by
  cases t <;> rfl

theorem isPure_retarget (f : BlockId → BlockId) (g : ClosureId → ClosureId) (t : Tail) :
    (t.retarget f g).isPure = t.isPure := by
  cases t <;> rfl

end Tail

def Call.retarget (f : BlockId → BlockId) (c : Call) : Call := ⟨f c.target, c.args⟩

namespace Code

def ctors : Code → List Ctor
  | done t => t.ctors
  | bind _ t rest => t.ctors ++ rest.ctors
  | assert _ ctor rest => ctor :: rest.ctors
  | branch .. => []
  | switch _ alts => alts.arms.map Arm.ctor

/-- Sends calls and allocations to other definitions. -/
def retarget (f : BlockId → BlockId) (g : ClosureId → ClosureId) : Code → Code
  | done t => done (t.retarget f g)
  | bind vars t rest => bind vars (t.retarget f g) (rest.retarget f g)
  | assert a ctor rest => assert a ctor (rest.retarget f g)
  | branch test yes no => branch test (yes.retarget f) (no.retarget f)
  | switch a alts => switch a (alts.mapCalls (Call.retarget f))

theorem retarget_id (code : Code) : code.retarget id id = code := by
  have hcall : Call.retarget id = id := rfl
  induction code with
  | done t => rw [retarget, t.retarget_id]
  | bind vars t rest ih => rw [retarget, t.retarget_id, ih]
  | assert a ctor rest ih => rw [retarget, ih]
  | branch test yes no => rfl
  | switch a alts => simp [retarget, hcall, Alts.mapCalls]

end Code

namespace Program

variable {p : Program}

/-- Does a data type of the program describe the constructor like this? -/
def Declares (p : Program) (c : Ctor) : Prop :=
  ∃ dt, p.datatypes[c.ty]? = some dt ∧ dt.ctors[c.tag]? = some c

instance (p : Program) (c : Ctor) : Decidable (p.Declares c) :=
  decidable_of_iff ((p.datatypes[c.ty]?).any fun dt => dt.ctors[c.tag]? = some c) (by
    simp [Declares, Option.any_eq_true])

theorem Declares.eq_of_same {c d : Ctor} (hc : p.Declares c) (hd : p.Declares d)
    (h : c.same d = true) : c = d := by
  obtain ⟨hty, htag⟩ := Ctor.same_iff.mp h
  obtain ⟨dt, hdt, hc⟩ := hc
  obtain ⟨_, hdt', hd⟩ := hd
  rw [← hty] at hdt'
  obtain rfl := Option.mem_unique hdt hdt'
  rw [← htag] at hd
  exact Option.mem_unique hc hd

def ctors (p : Program) : DefnId → List Ctor
  | .block b => (p.blocks[b.index]?).elim [] fun block => block.code.ctors
  | .closure k => (p.closures[k.index]?).elim [] fun closure => closure.tail.ctors
  | .top t => (p.tops[t.index]?).elim [] fun top => top.tail.ctors

/-- Are the constructors that retained definitions name all declared? -/
def Declared (p : Program) : Prop := ∀ d, p.Retained d → ∀ c ∈ p.ctors d, p.Declares c

instance (p : Program) : Decidable p.Declared :=
  inferInstanceAs (Decidable (∀ d ∈ Component.allMembers p.components.toList, ∀ c ∈ p.ctors d,
    p.Declares c))

end Program

/-- The atom is not a wildcard, and refers to what is retained. -/
structure Atom.Sound (p : Program) (a : Atom) : Prop where
  read : ∀ t, a.temp? = some t → t.isWildcard = false
  retained : ∀ r, a.top? = some r → p.Retained (.top r.top)

/-- The tail is checked, refers to what is retained and names declared constructors. -/
structure Tail.Sound (p : Program) (t : Tail) : Prop where
  checked : ∃ d, p.checkTail d t = .ok ()
  retained : ∀ d ∈ t.refs, p.Retained d
  declared : ∀ c ∈ t.ctors, p.Declares c

/-- Code in which every tail, call and operand is sound. -/
def Code.Sound (p : Program) : Code → Prop
  | done t => t.Sound p
  | bind _ t rest => t.Sound p ∧ rest.Sound p
  | assert a _ rest => a.Sound p ∧ rest.Sound p
  | branch test yes no => test.Sound p ∧ ∀ c ∈ [yes, no], (Tail.call c).Sound p
  | switch a alts => a.Sound p ∧ ∀ c ∈ alts.calls, (Tail.call c).Sound p

section Sound

variable {p : Program} {d : DefnId}

theorem Program.read_of_checkAtom {a : Atom} (h : p.checkAtom d a = .ok ()) {t : Temp}
    (ht : a.temp? = some t) : t.isWildcard = false := by
  cases a with
  | temp x =>
    obtain rfl := Option.some.inj ht
    simpa [checkAtom] using h
  | word | flag | top | external => cases ht

theorem Tail.Sound.atom {t : Tail} (h : t.Sound p) {a : Atom} (ha : a ∈ t.atoms) : a.Sound p := by
  obtain ⟨d, hd⟩ := h.checked
  exact ⟨fun x hx => read_of_checkAtom ((checkTail_eq_ok_iff.mp hd).1 a ha) hx,
    fun r hr => h.retained _ (Tail.top_mem_refs ha hr)⟩

theorem Code.sound {code : Code} {bound : List Temp} (hcheck : p.checkCode d code bound = .ok ())
    (hret : ∀ e ∈ code.refs, p.Retained e) (hdecl : ∀ c ∈ code.ctors, p.Declares c) :
    code.Sound p := by
  have hcall {c : Call} (hc : p.checkTail d (.call c) = .ok ())
      (hr : ∀ e ∈ (Tail.call c).refs, p.Retained e) : (Tail.call c).Sound p :=
    ⟨⟨d, hc⟩, hr, by simp [Tail.ctors]⟩
  induction code generalizing bound with
  | done t => exact ⟨⟨d, hcheck⟩, refs_done.mp hret, hdecl⟩
  | bind vars t rest ih =>
    obtain ⟨ht, -, -, -, hrest⟩ := checkCode_bind.mp hcheck
    obtain ⟨hrett, hretr⟩ := refs_bind.mp hret
    exact ⟨⟨⟨d, ht⟩, hrett, fun c hc => hdecl c (mem_append_left _ hc)⟩,
      ih hrest hretr fun c hc => hdecl c (mem_append_right _ hc)⟩
  | assert a ctor rest ih =>
    obtain ⟨ha, -, hrest⟩ := checkCode_assert.mp hcheck
    obtain ⟨hreta, hretr⟩ := refs_assert.mp hret
    exact ⟨⟨fun _ => read_of_checkAtom ha, hreta⟩,
      ih hrest hretr fun c hc => hdecl c (.tail _ hc)⟩
  | branch test yes no =>
    obtain ⟨ha, hcalls⟩ := checkCode_branch.mp hcheck
    obtain ⟨hreta, hretc⟩ := refs_branch.mp hret
    exact ⟨⟨fun _ => read_of_checkAtom ha, hreta⟩,
      fun c hc => hcall (hcalls c hc) (hretc c hc)⟩
  | switch a alts =>
    obtain ⟨ha, hcalls, -⟩ := checkCode_switch.mp hcheck
    obtain ⟨hreta, hretc⟩ := refs_switch.mp hret
    exact ⟨⟨fun _ => read_of_checkAtom ha, hreta⟩,
      fun c hc => hcall (hcalls c hc) (hretc c hc)⟩

namespace Program

variable (hcurrent : p.Current) (hcheck : p.check = .ok ()) (hdecl : p.Declared)

include hcurrent hcheck hdecl

theorem sound_of_block {b : BlockId} {block : Block} (hret : p.Retained (.block b))
    (hb : p.blocks[b.index]? = some block) : block.code.Sound p := by
  obtain ⟨_, hb', -, hcode⟩ := checkDefn_block.mp (checkDefn_of_retained hcheck hret)
  obtain rfl := Option.mem_unique hb hb'
  exact Code.sound hcode (fun e => hcurrent.retained_of_code hret hb)
    fun c hc => hdecl _ hret c (by simpa [ctors, hb] using hc)

theorem sound_of_closure {k : ClosureId} {closure : Closure} (hret : p.Retained (.closure k))
    (hk : p.closures[k.index]? = some closure) : closure.tail.Sound p := by
  obtain ⟨_, hk', -, htail⟩ := checkDefn_closure.mp (checkDefn_of_retained hcheck hret)
  obtain rfl := Option.mem_unique hk hk'
  exact ⟨⟨_, htail⟩, fun e => hcurrent.retained_of_closure hret hk,
    fun c hc => hdecl _ hret c (by simpa [ctors, hk] using hc)⟩

theorem sound_of_top {t : TopId} {top : TopLevel} (hret : p.Retained (.top t))
    (ht : p.tops[t.index]? = some top) : top.tail.Sound p := by
  obtain ⟨_, ht', htail, -⟩ := checkDefn_top.mp (checkDefn_of_retained hcheck hret)
  obtain rfl := Option.mem_unique ht ht'
  exact ⟨⟨_, htail⟩, fun e => hcurrent.retained_of_top hret ht,
    fun c hc => hdecl _ hret c (by simpa [ctors, ht] using hc)⟩

end Program

end Sound

namespace Pairing

variable {pairing : Pairing}

theorem bind_cons {x y : Temp} {xs ys : List Temp} :
    pairing.bind (x :: xs) (y :: ys) = Pairing.bind ((x, y) :: pairing) xs ys := by
  simp [Pairing.bind]

theorem bind_append {xs ys xs' ys' : List Temp} (h : xs.length = ys.length) :
    (pairing.bind xs ys).bind xs' ys' = pairing.bind (xs ++ xs') (ys ++ ys') := by
  simp [Pairing.bind, zip_append h]

def Same (pairing : Pairing) : Prop := ∀ e ∈ pairing, e.1 = e.2

theorem Same.nil : Same [] := by simp [Same]

theorem Same.bind (h : pairing.Same) (xs : List Temp) : (pairing.bind xs xs).Same := by
  intro e he
  rw [Pairing.bind, mem_append, mem_reverse] at he
  obtain he | he := he
  · obtain ⟨i, hi, rfl⟩ := getElem_of_mem he
    simp
  · exact h e he

theorem Same.corresponds (h : pairing.Same) (x : Temp) : pairing.corresponds x x = true := by
  induction pairing with
  | nil => simp [Pairing.corresponds]
  | cons e pairing ih =>
    obtain ⟨y, z⟩ := e
    obtain rfl : y = z := h _ (.head ..)
    have hrest := ih fun e he => h e (.tail _ he)
    by_cases hx : x = y <;> simp [Pairing.corresponds, hx, hrest]

end Pairing

section Self

variable {pairing : Pairing} (h : pairing.Same)

include h

theorem Atom.alpha_self (a : Atom) : a.alpha pairing a = true := by
  cases a <;> simp [alpha, h.corresponds]

theorem Atom.alphaAll_self (as : List Atom) : Atom.alphaAll pairing as as = true := by
  induction as with
  | nil => rfl
  | cons a as ih => simp [alphaAll, alpha_self h, ih]

theorem Call.alpha_self (c : Call) : c.alpha pairing c = true := by
  simp [alpha, Atom.alphaAll_self h]

theorem Tail.alpha_self (t : Tail) : t.alpha pairing t = true := by
  cases t <;> simp [alpha, Atom.alpha_self h, Atom.alphaAll_self h, Call.alpha_self h]

theorem Alts.alpha_self (alts : Alts) : alts.alpha pairing alts = true := by
  obtain ⟨arms, default⟩ := alts
  have harms : alphaArms pairing arms arms = true := by
    induction arms with
    | nil => rfl
    | cons arm arms ih => simp [alphaArms, Call.alpha_self h, ih]
  cases default <;> simp [alpha, alphaDefault, harms, Call.alpha_self h]

end Self

variable {pairing : Pairing}

theorem Code.alpha_self (code : Code) (h : pairing.Same) :
    code.alpha code pairing = true := by
  induction code generalizing pairing with
  | done t => exact t.alpha_self h
  | bind vars t rest ih => simp [alpha, Tail.alpha_self h, ih (h.bind vars)]
  | assert a ctor rest ih => simp [alpha, Atom.alpha_self h, ih h]
  | branch test yes no => simp [alpha, Atom.alpha_self h, Call.alpha_self h]
  | switch a alts => simp [alpha, Atom.alpha_self h, Alts.alpha_self h]

theorem Block.alphaEquiv_self (block : Block) : block.alphaEquiv block = true := by
  simp [alphaEquiv, block.code.alpha_self (Pairing.Same.nil.bind block.params)]

theorem Closure.alphaEquiv_self (closure : Closure) : closure.alphaEquiv closure = true := by
  simp [alphaEquiv,
    closure.tail.alpha_self ((Pairing.Same.nil.bind closure.stored).bind closure.params)]

theorem Atom.alphaAll_iff {as bs : List Atom} :
    Atom.alphaAll pairing as bs = true ↔ List.Forall₂ (fun a b => a.alpha pairing b = true) as
      bs := by
  induction as generalizing bs with
  | nil => cases bs <;> simp [alphaAll]
  | cons a as ih => cases bs <;> simp [alphaAll, ih]

theorem Call.alpha_iff {c d : Call} : c.alpha pairing d = true ↔
    c.target = d.target ∧ List.Forall₂ (fun a b => a.alpha pairing b = true) c.args d.args := by
  simp [alpha, Atom.alphaAll_iff]

theorem Alts.select_alpha {xs ys : Alts} (h : xs.alpha pairing ys = true) {c : Ctor} {taken : Call}
    (hs : ys.select c = some taken) :
    ∃ taken', xs.select c = some taken' ∧ taken'.alpha pairing taken = true := by
  obtain ⟨as, default⟩ := xs
  obtain ⟨bs, default'⟩ := ys
  simp only [alpha, Bool.and_eq_true] at h
  obtain ⟨hd, harms⟩ := h
  simp only [select] at hs ⊢
  induction as generalizing bs with
  | nil =>
    cases bs with
    | nil =>
      obtain rfl : default' = some taken := hs
      cases default with
      | none => simp [alphaDefault] at hd
      | some d => exact ⟨d, rfl, hd⟩
    | cons => simp [alphaArms] at harms
  | cons a as ih =>
    cases bs with
    | nil => simp [alphaArms] at harms
    | cons b bs =>
      simp only [alphaArms, Bool.and_eq_true] at harms
      obtain ⟨⟨hctor, hcall⟩, hrest⟩ := harms
      have hsame : a.ctor.same c = b.ctor.same c := by
        obtain ⟨hty, htag⟩ := Ctor.same_iff.mp hctor
        simp [Ctor.same, hty, htag]
      rw [List.find?_cons] at hs ⊢
      rw [hsame]
      cases hb : b.ctor.same c with
      | true =>
        rw [hb] at hs
        obtain rfl := Option.some.inj hs
        exact ⟨a.call, rfl, hcall⟩
      | false =>
        rw [hb] at hs
        exact ih bs hs hrest

namespace Value

mutual

/-- The value after references to closures were replaced. -/
def redirect (g : ClosureId → ClosureId) : Value → Value
  | data ctor fields => data ctor (redirectAll g fields)
  | closure k stored => closure (g k) (redirectAll g stored)
  | v => v

def redirectAll (g : ClosureId → ClosureId) : List Value → List Value
  | [] => []
  | v :: vs => redirect g v :: redirectAll g vs

end

variable (g : ClosureId → ClosureId)

theorem redirectAll_eq (vs : List Value) : redirectAll g vs = vs.map (redirect g) := by
  induction vs with
  | nil => rfl
  | cons v vs ih => rw [redirectAll, ih, map_cons]

mutual

theorem observe_redirect : ∀ v : Value, (v.redirect g).observe = v.observe
  | word _ | flag _ | external _ | closure .. => rfl
  | data _ fields => by
    rw [redirect, observe, observe, observeAll_redirectAll fields]

theorem observeAll_redirectAll : ∀ vs : List Value, observeAll (redirectAll g vs) = observeAll vs
  | [] => rfl
  | v :: vs => by
    rw [redirectAll, observeAll, observeAll, observe_redirect v, observeAll_redirectAll vs]

end

end Value

theorem Env.lookup_map (F : Value → Value) (env : Env) (t : Temp) :
    Env.lookup (env.map fun e => (e.1, F e.2)) t = (env.lookup t).map F := by
  induction env with
  | nil => rfl
  | cons e env ih =>
    rw [map_cons, lookup_cons, lookup_cons, ih]
    split <;> rfl

theorem Program.Runs.defines {p : Program} {r : Rules} {depth cost : Nat} {b : BlockId}
    {args : List Value} {w w' : World} {e : Result} (h : p.Runs r depth cost b args w e w') :
    p.defines (.block b) = true := by
  obtain ⟨_ | calls, h⟩ := h
  · exact h.elim
  · obtain ⟨block, hblock, -⟩ := h
    exact defines_block_iff.mpr ⟨block, hblock⟩

theorem Program.exists_prunes {p : Program} (hcurrent : p.Current) (hcheck : p.check = .ok ()) :
    ∃ usage, Prunes p usage (p.prunedBy usage.removable) := by
  obtain ⟨usage, -, haccounts⟩ := usage_spec hcurrent
  exact ⟨usage, hcurrent, hcheck, haccounts, rfl⟩

/-- What the tails of a checked program compute refers to retained closures only. -/
theorem Tail.Sound.fits {p : Program} (hcurrent : p.Current) (hcheck : p.check = .ok ()) {t : Tail}
    (ht : t.Sound p) {env : Env} (hnamed : env.Named) (hfits : ∀ x v, env.lookup x = some v →
      v.Fits p)
    {calls room : Nat} {u : Use} {w w' : World} {e : Result}
    (hrun : t.Runs (p.counted calls) room env u w e w') : Ending.Each (Value.Fits p) e := by
  obtain ⟨usage, h⟩ := exists_prunes hcurrent hcheck
  obtain ⟨d, hd⟩ := ht.checked
  have henv : Env.Shrinks p usage (usage.tailUses t) env
      (env.map fun e => (e.1, e.2.shrink usage.removable)) :=
    ⟨hnamed, hfits, fun x _ v hv => by rw [Env.lookup_map, hv]; rfl⟩
  exact (h.tail (h.simulates calls) henv ht.retained hd hrun).2

/-- Values of top-levels refer to other closures. -/
def TopsRedirect (p : Program) (g : ClosureId → ClosureId)
    (tops tops' : TopId → List Value → Prop) : Prop :=
  ∀ ⦃t vs⦄, p.Retained (.top t) → tops t vs → tops' t (vs.map (Value.redirect g))

/-- Variables that correspond have the same values in both environments, up to references to
closures. The first component of each pair is a variable of the second environment. -/
structure Env.Matches (p : Program) (g : ClosureId → ClosureId) (pairing : Pairing)
    (env env' : Env) : Prop where
  named : env.Named
  fits : ∀ t v, env.lookup t = some v → v.Fits p
  found : ∀ x y v, pairing.corresponds x y = true → x.isWildcard = false → env.lookup y = some v →
    env'.lookup x = some (v.redirect g)

namespace Env.Matches

variable {p : Program} {g : ClosureId → ClosureId} {pairing : Pairing} {env env' : Env}

theorem nil : Env.Matches p g [] [] [] := ⟨.nil, by simp, by simp⟩

theorem put (h : Env.Matches p g pairing env env') (x y : Temp) {v : Value} (hv : v.Fits p) :
    Env.Matches p g ((x, y) :: pairing) (env.put y v) (env'.put x (v.redirect g)) := by
  have hnamed : (env.put y v).Named := h.named.bind [y] [v]
  refine ⟨hnamed, fun t u hu => ?_, fun a b u hab ha hu => ?_⟩
  · rw [lookup_put] at hu
    split at hu
    · obtain rfl := Option.some.inj hu
      exact hv
    · exact h.fits t u hu
  · have hb := hnamed b u hu
    rw [lookup_put] at hu ⊢
    rw [Pairing.corresponds] at hab
    split at hab
    · simp only [Bool.and_eq_true, beq_iff_eq] at hab
      obtain ⟨rfl, rfl⟩ := hab
      rw [if_pos ⟨rfl, hb⟩] at hu
      rw [if_pos ⟨rfl, ha⟩, ← Option.some.inj hu]
    · rename_i hne
      rw [not_or] at hne
      rw [if_neg fun hy => hne.2 hy.1.symm] at hu
      rw [if_neg fun hx => hne.1 hx.1.symm]
      exact h.found a b u hab ha hu

theorem bind (h : Env.Matches p g pairing env env') {xs ys : List Temp} {vs : List Value}
    (hxs : xs.length = ys.length) (hys : ys.length = vs.length) (hvs : ∀ v ∈ vs, v.Fits p) :
    Env.Matches p g (pairing.bind xs ys) (env.bind ys vs)
      (env'.bind xs (vs.map (Value.redirect g))) := by
  induction vs generalizing xs ys pairing env env' with
  | nil =>
    obtain rfl := length_eq_zero_iff.mp hys
    obtain rfl := length_eq_zero_iff.mp hxs
    exact h
  | cons v vs ih =>
    obtain _ | ⟨y, ys⟩ := ys
    · cases hys
    obtain _ | ⟨x, xs⟩ := xs
    · cases hxs
    rw [Pairing.bind_cons, map_cons, bind_cons, bind_cons]
    exact ih (h.put x y (hvs v (.head ..))) (Nat.succ.inj hxs) (Nat.succ.inj hys)
      fun u hu => hvs u (.tail _ hu)

end Env.Matches

section Operands

variable {p : Program} {g : ClosureId → ClosureId} {tops tops' : TopId → List Value → Prop}
  {env env' : Env} {pairing : Pairing}

theorem Atom.Has.redirect (htops : TopsRedirect p g tops tops')
    (henv : Env.Matches p g pairing env env')
    {a b : Atom} (hab : a.alpha pairing b = true) (ha : a.Sound p) (hb : b.Sound p) {v : Value}
    (h : b.Has tops env v) : a.Has tops' env' (v.redirect g) := by
  cases b with
  | temp y =>
    cases a with
    | temp x => exact henv.found x y v hab (ha.read x rfl) h
    | word | flag | top | external => simp [alpha] at hab
  | top r =>
    obtain rfl : a = .top r := by cases a <;> simp_all [alpha]
    obtain ⟨vs, ht, hv⟩ := h
    exact ⟨_, htops (hb.retained r rfl) ht, by simp [hv]⟩
  | word | flag | external =>
    obtain rfl : v = _ := h
    cases a <;> simp_all [alpha, Has, Value.redirect]

theorem Atom.HasAll.redirect (htops : TopsRedirect p g tops tops')
    (henv : Env.Matches p g pairing env env') {as bs : List Atom}
    (hab : List.Forall₂ (fun a b => a.alpha pairing b = true) as bs) (has : ∀ a ∈ as, a.Sound p)
    (hbs : ∀ b ∈ bs, b.Sound p) {vs : List Value} (h : Atom.HasAll tops env bs vs) :
    Atom.HasAll tops' env' as (vs.map (Value.redirect g)) := by
  induction hab generalizing vs with
  | nil =>
    cases h
    exact .nil
  | cons hab _ ih =>
    obtain _ | ⟨hv, hvs⟩ := h
    exact .cons (hv.redirect htops henv hab (has _ (.head ..)) (hbs _ (.head ..)))
      (ih (fun a ha => has a (.tail _ ha)) (fun b hb => hbs b (.tail _ hb))
        hvs)

theorem Tail.Simple.redirect (htops : TopsRedirect p g tops tops')
    (henv : Env.Matches p g pairing env env') {t u : Tail} (htu : t.alpha pairing u = true)
    (ht : t.Sound p) (hu : u.Sound p) (f : BlockId → BlockId) {w w' : World} {e : Result}
    (h : u.Simple tops Allocates env w e w') :
    (t.retarget f g).Simple tops' Allocates env' w (e.map (List.map (Value.redirect g))) w' := by
  have hat {a} : a ∈ t.atoms → a.Sound p := ht.atom
  have hau {a} : a ∈ u.atoms → a.Sound p := hu.atom
  cases u with
  | ret bs =>
    obtain ⟨vs, hv, rfl, rfl⟩ := h
    cases t with
    | ret as =>
      exact ⟨_, hv.redirect htops henv (Atom.alphaAll_iff.mp htu) (fun _ => hat) (fun _ => hau),
        rfl, rfl⟩
    | enter | call | data | closure | sel | prim => simp [alpha] at htu
  | data d bs =>
    obtain ⟨vs, hv, rfl, rfl⟩ := h
    cases t with
    | data c as =>
      simp only [alpha, Bool.and_eq_true, Atom.alphaAll_iff] at htu
      obtain rfl := (ht.declared c (by simp [ctors])).eq_of_same (hu.declared d (by simp [ctors]))
        htu.1
      refine ⟨_, hv.redirect htops henv htu.2 (fun _ => hat) (fun _ => hau), ?_, rfl⟩
      simp [Ending.map, Value.redirect, Value.redirectAll_eq]
    | ret | enter | call | closure | sel | prim => simp [alpha] at htu
  | closure k bs =>
    obtain ⟨vs, v, hv, rfl, rfl, rfl⟩ := h
    cases t with
    | closure l as =>
      simp only [alpha, Bool.and_eq_true, beq_iff_eq, Atom.alphaAll_iff] at htu
      obtain ⟨rfl, hargs⟩ := htu
      refine ⟨_, _, hv.redirect htops henv hargs (fun _ => hat) (fun _ => hau), rfl, ?_, rfl⟩
      simp [Ending.map, Value.redirect, Value.redirectAll_eq]
    | ret | enter | call | data | sel | prim => simp [alpha] at htu
  | sel d field b =>
    obtain ⟨c, fields, v, hb, hc, hf, rfl, rfl⟩ := h
    cases t with
    | sel d' field' a =>
      simp only [alpha, Bool.and_eq_true, beq_iff_eq] at htu
      obtain ⟨⟨hsame, rfl⟩, hab⟩ := htu
      have ha := hb.redirect htops henv hab (hat (by simp [atoms])) (hau (by simp [atoms]))
      rw [Value.redirect, Value.redirectAll_eq] at ha
      refine ⟨c, _, _, ha, Ctor.same_trans hc ?_, by simp [hf], rfl, rfl⟩
      rwa [Ctor.same_comm]
    | ret | enter | call | data | closure | prim => simp [alpha] at htu
  | prim q bs =>
    obtain ⟨vs, hv, hw⟩ := h
    cases t with
    | prim q' as =>
      simp only [alpha, Bool.and_eq_true, beq_iff_eq, Atom.alphaAll_iff] at htu
      obtain ⟨rfl, hargs⟩ := htu
      exact ⟨_, hv.redirect htops henv hargs (fun _ => hat) (fun _ => hau), Prim.effect_map
        (by rintro (_ | _) <;> rfl) (by rintro (_ | _) <;> rfl) (Value.observe_redirect g) hw⟩
    | ret | enter | call | data | closure | sel => simp [alpha] at htu
  | call | enter => exact h.elim

end Operands

/-- The second program is the first one with other references. Each retained block and closure is
replaced by an equivalent one. -/
structure Merges (p q : Program) (f : BlockId → BlockId) (g : ClosureId → ClosureId) : Prop where
  current : p.Current
  checked : p.check = .ok ()
  declared : p.Declared
  block : ∀ {b : BlockId} {block}, p.Retained (.block b) → p.blocks[b.index]? = some block →
    ∃ other, p.Retained (.block (f b)) ∧ p.blocks[(f b).index]? = some other ∧
      other.alphaEquiv block = true
  closure : ∀ {k : ClosureId} {closure}, p.Retained (.closure k) →
    p.closures[k.index]? = some closure →
    ∃ other, p.Retained (.closure (g k)) ∧ p.closures[(g k).index]? = some other ∧
      other.alphaEquiv closure = true
  blocks : ∀ {b : BlockId} {block}, p.Retained (.block b) → p.blocks[b.index]? = some block →
    ∃ block', q.blocks[b.index]? = some block' ∧ block'.params = block.params ∧
      block'.code = block.code.retarget f g
  closures : ∀ {i : Nat} {closure}, p.closures[i]? = some closure →
    ∃ closure', q.closures[i]? = some closure' ∧ closure'.stored = closure.stored ∧
      closure'.params = closure.params ∧ closure'.tail = closure.tail.retarget f g
  tops : ∀ {i : Nat} {top}, p.tops[i]? = some top → ∃ top', q.tops[i]? = some top' ∧
    top'.lhs = top.lhs ∧ top'.tail = top.tail.retarget f g

namespace Merges

variable {p q : Program} {f : BlockId → BlockId} {g : ClosureId → ClosureId} {env env' : Env}
  {pairing : Pairing} {w w' : World} {e : Result}

variable (h : Merges p q f g)

include h

theorem topWithin (height : Nat) :
    TopsRedirect p g (p.topWithin height) (q.topWithin height) := by
  induction height with
  | zero => exact fun _ _ _ ht => ht.elim
  | succ height ih =>
    rintro t vs hret ⟨top, htop, hl, hs⟩
    obtain ⟨top', htop', hlhs, htail⟩ := h.tops htop
    have hsound := sound_of_top h.current h.checked h.declared hret htop
    refine ⟨top', htop', by simpa [hlhs] using hl, fun w => ?_⟩
    rw [htail]
    exact (hs w).redirect ih .nil (top.tail.alpha_self .nil) hsound hsound f

theorem hasTop : TopsRedirect p g p.HasTop q.HasTop := by
  rintro t vs hret ⟨height, ht⟩
  exact ⟨height, h.topWithin height hret ht⟩

/-- What is simulated of blocks and closures, up to so many calls. -/
structure Simulates (p q : Program) (f : BlockId → BlockId) (g : ClosureId → ClosureId)
    (calls : Nat) : Prop where
  jump : ∀ {depth n b vs w e w'}, p.Retained (.block b) → (∀ v ∈ vs, v.Fits p) →
    (p.counted calls).jump depth n b vs w e w' →
    (q.counted calls).jump depth n (f b) (vs.map (Value.redirect g)) w
      (e.map (List.map (Value.redirect g))) w'
  enter : ∀ {room n v vs w e w'}, v.Fits p → (∀ v ∈ vs, v.Fits p) →
    (p.counted calls).enter room n v vs w e w' →
    (q.counted calls).enter room n (v.redirect g) (vs.map (Value.redirect g)) w
      (e.map (List.map (Value.redirect g))) w'

variable {calls : Nat}

theorem fits (henv : Env.Matches p g pairing env env') {args : List Atom} {vs : List Value}
    (hv : Atom.HasAll p.HasTop env args vs) (hs : ∀ a ∈ args, a.Sound p) :
    ∀ v ∈ vs, v.Fits p := by
  obtain ⟨usage, hprunes⟩ := exists_prunes h.current h.checked
  exact hv.fits hprunes.hasTop henv.fits fun a ha => (hs a ha).retained

theorem call (hsim : Simulates p q f g calls) {c d : Call} (hcd : c.alpha pairing d = true)
    (hc : (Tail.call c).Sound p) (hd : (Tail.call d).Sound p)
    (henv : Env.Matches p g pairing env env') {depth : Nat} {u : Use}
    (hrun : d.Runs (p.counted calls) depth env u w e w') :
    (c.retarget f).Runs (q.counted calls) depth env' u w (e.map (List.map (Value.redirect g)))
      w' := by
  obtain ⟨vs, n, hv, rfl, hj⟩ := hrun
  rw [meaning_top] at hv
  obtain ⟨htarget, hargs⟩ := Call.alpha_iff.mp hcd
  have hret : p.Retained (.block d.target) := hd.retained _ (Tail.mem_refs_call.mpr (.inl rfl))
  have hj' := hsim.jump hret (h.fits henv hv fun _ => hd.atom) hj
  refine ⟨_, n, ?_, by simp, by rwa [Call.retarget, htarget]⟩
  rw [meaning_top]
  exact hv.redirect h.hasTop henv hargs (fun _ => hc.atom) fun _ => hd.atom

theorem tail (hsim : Simulates p q f g calls) {t s : Tail} (hts : t.alpha pairing s = true)
    (ht : t.Sound p) (hs : s.Sound p) (henv : Env.Matches p g pairing env env') {room : Nat}
    {u : Use} (hrun : s.Runs (p.counted calls) room env u w e w') :
    (t.retarget f g).Runs (q.counted calls) room env' u w (e.map (List.map (Value.redirect g)))
      w' := by
  by_cases hsimple : s.isSimple
  · obtain ⟨rfl, hsimple⟩ := simple_of_runs hsimple hrun
    exact runs_of_simple (hsimple.redirect h.hasTop henv hts ht hs f)
  · cases s with
    | call d =>
      obtain ⟨depth, rfl, hrun⟩ := hrun
      cases t with
      | call c => exact ⟨depth, rfl, h.call hsim hts ht hs henv hrun⟩
      | ret | enter | data | closure | sel | prim => simp [Tail.alpha] at hts
    | enter b bs =>
      obtain ⟨v, vs, n, hb, hbs, rfl, hrun⟩ := hrun
      rw [meaning_top] at hb hbs
      cases t with
      | enter a as =>
        simp only [Tail.alpha, Bool.and_eq_true, Atom.alphaAll_iff] at hts
        have hall : Atom.HasAll p.HasTop env (b :: bs) (v :: vs) := .cons hb hbs
        have hfits := h.fits henv hall fun _ => hs.atom
        have hall' := hall.redirect h.hasTop henv (.cons hts.1 hts.2) (fun _ => ht.atom) fun _ =>
          hs.atom
        obtain _ | ⟨ha, has⟩ := hall'
        refine ⟨_, _, n, ?_, ?_, rfl, hsim.enter (hfits v (.head ..))
          (fun u hu => hfits u (.tail _ hu)) hrun⟩ <;> rw [meaning_top]
        · exact ha
        · exact has
      | ret | call | data | closure | sel | prim => simp [Tail.alpha] at hts
    | ret | data | closure | sel | prim => exact (hsimple rfl).elim

theorem atom (henv : Env.Matches p g pairing env env') {a b : Atom} (hab : a.alpha pairing b = true)
    (ha : a.Sound p) (hb : b.Sound p) {v : Value} (hv : b.Has (p.counted calls).top env v) :
    a.Has (q.counted calls).top env' (v.redirect g) := by
  rw [meaning_top] at hv ⊢
  exact hv.redirect h.hasTop henv hab ha hb

theorem code (hsim : Simulates p q f g calls) {code other : Code}
    (hα : other.alpha code pairing = true) (hother : other.Sound p) (hcode : code.Sound p)
    (henv : Env.Matches p g pairing env env') {depth cost rank : Nat}
    (hrun : code.Runs (p.counted calls) .machine depth cost rank env w e w') :
    (other.retarget f g).Runs (q.counted calls) .machine depth cost rank env' w
      (e.map (List.map (Value.redirect g))) w' := by
  induction code generalizing other pairing cost rank env env' w with
  | done s =>
    obtain ⟨u, hu, hrun⟩ := hrun
    cases other with
    | done t => exact ⟨u, hu, h.tail hsim hα hother hcode henv hrun⟩
    | bind | assert | branch | switch => simp [Code.alpha] at hα
  | bind ys s rest ih =>
    cases other with
    | bind xs t rest' =>
      simp only [Code.alpha, Bool.and_eq_true, beq_iff_eq] at hα
      obtain ⟨⟨hlen, hts⟩, hrest⟩ := hα
      obtain ⟨hd, u, ⟨hu, rfl, hrun⟩ | ⟨vs, w1, left, hl, hrun, hvs, hr⟩⟩ := hrun
      · exact ⟨hd, u, .inl ⟨hu, rfl, h.tail hsim hts hother.1 hcode.1 henv hrun⟩⟩
      · have hfits := hcode.1.fits h.current h.checked henv.named henv.fits hrun
        exact ⟨hd, u, .inr ⟨_, w1, left, hl, h.tail hsim hts hother.1 hcode.1 henv hrun,
          by simp [hvs, hlen], ih hrest hother.2 hcode.2 (henv.bind hlen hvs.symm hfits) hr⟩⟩
    | done | assert | branch | switch => simp [Code.alpha] at hα
  | assert b d rest ih =>
    cases other with
    | assert a c rest' =>
      simp only [Code.alpha, Bool.and_eq_true] at hα
      obtain ⟨⟨hcd, hab⟩, hrest⟩ := hα
      obtain ⟨c', fields, left, hb, hc, hl, hr⟩ := hrun
      refine ⟨c', _, left, h.atom henv hab hother.1 hcode.1 hb, Ctor.same_trans hc ?_, hl,
        ih hrest hother.2 hcode.2 henv hr⟩
      rwa [Ctor.same_comm]
    | done | bind | branch | switch => simp [Code.alpha] at hα
  | branch test yes no =>
    cases other with
    | branch test' yes' no' =>
      simp only [Code.alpha, Bool.and_eq_true] at hα
      obtain ⟨⟨htest, hyes⟩, hno⟩ := hα
      obtain ⟨b, u, hb, hu, hc⟩ := hrun
      refine ⟨b, u, h.atom henv htest hother.1 hcode.1 hb, hu, ?_⟩
      cases b with
      | true => exact h.call hsim hyes (hother.2 yes' (by simp)) (hcode.2 yes (by simp)) henv hc
      | false => exact h.call hsim hno (hother.2 no' (by simp)) (hcode.2 no (by simp)) henv hc
    | done | bind | assert | switch => simp [Code.alpha] at hα
  | switch b alts =>
    cases other with
    | switch a alts' =>
      simp only [Code.alpha, Bool.and_eq_true] at hα
      obtain ⟨hab, halts⟩ := hα
      obtain ⟨c, fields, taken, u, hb, hsel, hfits, hu, hc⟩ := hrun
      obtain ⟨taken', hsel', htaken⟩ := Alts.select_alpha halts hsel
      refine ⟨c, _, taken'.retarget f, u, h.atom henv hab hother.1 hcode.1 hb, ?_, hfits, hu, ?_⟩
      · rw [Alts.select_mapCalls, hsel']
        rfl
      · exact h.call hsim htaken (hother.2 _ (Alts.mem_calls_of_select hsel'))
          (hcode.2 _ (Alts.mem_calls_of_select hsel)) henv hc
    | done | bind | assert | branch => simp [Code.alpha] at hα

theorem simulates (calls : Nat) : Simulates p q f g calls := by
  induction calls with
  | zero => exact ⟨fun _ _ h => h.elim, fun _ _ h => h.elim⟩
  | succ calls ih =>
    refine ⟨?_, ?_⟩
    · rintro depth n b vs w e w' hret hvs ⟨block, hb, hl, hrun⟩
      obtain ⟨other, hret', hother, hα⟩ := h.block hret hb
      obtain ⟨block', hb', hparams, hcode⟩ := h.blocks hret' hother
      simp only [Block.alphaEquiv, Bool.and_eq_true, beq_iff_eq] at hα
      refine ⟨block', hb', by simp [hparams, hα.1, hl], ?_⟩
      rw [hparams, hcode]
      exact h.code ih hα.2 (sound_of_block h.current h.checked h.declared hret' hother)
        (sound_of_block h.current h.checked h.declared hret hb)
        (Env.Matches.nil.bind hα.1 hl hvs) hrun
    · rintro room n v vs w e w' hv hvs ⟨k, stored, closure, u, rfl, hk, hl, hu, hrun⟩
      obtain ⟨hret, -, hfits⟩ := hv
      rw [Value.fitsAll_iff] at hfits
      obtain ⟨other, hret', hother, hα⟩ := h.closure hret hk
      obtain ⟨closure', hk', hstored, hparams, htail⟩ := h.closures hother
      simp only [Closure.alphaEquiv, Bool.and_eq_true, beq_iff_eq] at hα
      obtain ⟨⟨hs, hp⟩, hα⟩ := hα
      rw [Pairing.bind_append hs] at hα
      have hlen : (other.stored ++ other.params).length =
        (closure.stored ++ closure.params).length := by
        simp [hs, hp]
      have henv := (Env.Matches.nil (p := p) (g := g)).bind hlen hl fun u hu =>
        (mem_append.mp hu).elim (hfits u) (hvs u)
      refine ⟨g k, stored.map (Value.redirect g), closure', u, ?_, hk', ?_, hu, ?_⟩
      · rw [Value.redirect, Value.redirectAll_eq]
      · rw [hstored, hparams, ← map_append, length_map, hlen, hl]
      · rw [hstored, hparams, htail, ← map_append]
        exact h.tail ih hα (sound_of_closure h.current h.checked h.declared hret' hother)
          (sound_of_closure h.current h.checked h.declared hret hk) henv hrun

/-- A run that comes to an end does so in the program with other references, with as many steps. -/
theorem run {b : BlockId} (hb : .block b ∈ p.entrypoints) (hfb : f b = b) {depth limit : Nat}
    {args : List Word} (hrun : p.Runs .machine depth limit b (args.map .word) {} e w') :
    q.Runs .machine depth limit b (args.map .word) {} (e.map (List.map (Value.redirect g))) w' := by
  have hdef := hrun.defines
  obtain ⟨calls, hrun⟩ := hrun
  have hwords : ∀ v ∈ args.map Value.word, v.Fits p := by simp [Value.Fits]
  have hredirect : (args.map Value.word).map (Value.redirect g) = args.map Value.word := by
    simp [Value.redirect]
  have hrun' := (h.simulates calls).jump (h.current.retained_root hb hdef) hwords hrun
  rw [hfb, hredirect] at hrun'
  exact ⟨calls, hrun'⟩

end Merges

end MonadicIR
