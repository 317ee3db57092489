import MonadicIR.Program
import MonadicIR.Proofs.Environment
import MonadicIR.Proofs.Legality

namespace MonadicIR

open List

/-- The second list has new variables for those of the first, with numbers from `n` up to `n'`. -/
inductive Fresh : Nat → List Temp → List Temp → Nat → Prop
  | nil {n : Nat} : Fresh n [] [] n
  | wildcard {n n' : Nat} {t : Temp} {ts us : List Temp} (ht : t.isWildcard = true)
      (h : Fresh n ts us n') : Fresh n (t :: ts) (t :: us) n'
  | cons {n n' : Nat} {t : Temp} {ts us : List Temp} (h : Fresh (n + 1) ts us n') :
      Fresh n (t :: ts) (⟨n⟩ :: us) n'

namespace Fresh

variable {n n' : Nat} {ts us : List Temp}

variable (h : Fresh n ts us n')

include h

theorem le : n ≤ n' := by
  induction h with
  | nil => exact le_rfl
  | wildcard _ _ ih => exact ih
  | cons _ ih => omega

theorem length_eq : us.length = ts.length := by
  induction h with
  | nil => rfl
  | wildcard _ _ ih | cons _ ih => simp [ih]

theorem bounds {u : Temp} (hu : u ∈ named us) :
    n ≤ u.index ∧ u.index < n' := by
  induction h with
  | nil => cases hu
  | wildcard ht _ ih =>
    refine ih ?_
    simpa [named, ht] using hu
  | @cons n n' t ts us h ih =>
    have := h.le
    obtain ⟨hu, hw⟩ := mem_named.mp hu
    obtain rfl | hu := mem_cons.mp hu
    · exact ⟨le_rfl, Nat.lt_of_succ_le this⟩
    · have := ih (mem_named.mpr ⟨hu, hw⟩)
      omega

theorem append {n'' : Nat} {ts' us' : List Temp} (h' : Fresh n' ts' us' n'') :
    Fresh n (ts ++ ts') (us ++ us') n'' := by
  induction h with
  | nil => exact h'
  | wildcard ht _ ih => exact .wildcard ht (ih h')
  | cons _ ih => exact .cons (ih h')

theorem nodup : (named us).Nodup := by
  induction h with
  | nil => exact nodup_nil
  | wildcard ht _ ih => simpa [named, ht] using ih
  | @cons n n' t ts us h ih =>
    have hhead : ⟨n⟩ ∉ named us := fun hmem =>
      Nat.not_succ_le_self n (h.bounds hmem).1
    unfold named at ih hhead ⊢
    rw [filter_cons]
    split
    · exact nodup_cons.mpr ⟨hhead, ih⟩
    · exact ih

theorem binders {σ : Signature} {scope : List Temp} (hscope : ∀ x ∈ scope, x.index < n)
    (hσ : n' ≤ σ.temps) : Binders σ scope us := by
  refine ⟨h.nodup, fun u hu hmem => ?_, fun u hu => ?_⟩
  · have := h.bounds hu
    have := hscope u hmem
    omega
  · have := h.bounds hu
    omega

end Fresh

namespace Temps

theorem freshLikeAll_fresh (m : Temps) (ts : List Temp) :
    Fresh m.size ts (m.freshLikeAll ts).1 (m.freshLikeAll ts).2.size := by
  induction ts generalizing m with
  | nil => exact .nil
  | cons t ts ih =>
    simp only [freshLikeAll, freshLike]
    split
    · rename_i ht
      exact .wildcard ht (ih m)
    · have := ih (m.freshTyped (m.ty t)).2
      simp only [size, freshTyped, Array.size_push] at this
      exact .cons this

end Temps

namespace Subst

variable {s : Subst} {t x : Temp} {a : Atom}

theorem lookup_extend :
    (s.extend x a).lookup t = if x = t ∧ x.isWildcard = false then some a else s.lookup t := by
  unfold extend lookup
  split <;> by_cases h : x = t <;> simp_all

theorem apply_extend_self (h : t.isWildcard = false) : (s.extend t a).apply (.temp t) = a := by
  simp [apply, lookup_extend, h]

@[simp] theorem apply_empty (a : Atom) : ({} : Subst).apply a = a := by
  cases a <;> rfl

def Carries (tops : TopId → List Value → Prop) (s : Subst) (env env' : Env) : Prop :=
  ∀ ⦃t v⦄, env.lookup t = some v → (s.apply (.temp t)).Has tops env' v

variable {tops : TopId → List Value → Prop} {env env' : Env}

theorem Carries.atom (h : s.Carries tops env env') {v : Value} (ha : a.Has tops env v) :
    (s.apply a).Has tops env' v := by
  cases a with
  | temp t => exact h ha
  | top | word | flag | external => exact ha

theorem Carries.atoms (h : s.Carries tops env env') {as : List Atom} {vs : List Value}
    (ha : Atom.HasAll tops env as vs) : Atom.HasAll tops env' (as.map s.apply) vs :=
  forall₂_map_left_iff.mpr (ha.imp fun _ _ => h.atom)

theorem Carries.nil : s.Carries tops [] env' := fun _ _ h => nomatch h

theorem Carries.extend (h : s.Carries tops env env') {v : Value} (ha : a.Has tops env' v) :
    (s.extend x a).Carries tops (env.put x v) env' := by
  intro t u hu
  rw [Env.lookup_put] at hu
  split at hu
  · rename_i hx
    obtain ⟨rfl, hw⟩ := hx
    obtain rfl := Option.some.inj hu
    rwa [apply_extend_self hw]
  · rename_i hx
    simp only [apply, lookup_extend, if_neg hx]
    exact h hu

theorem Carries.extendAll (h : s.Carries tops env env') {ts : List Temp} {as : List Atom}
    {vs : List Value} (hlen : ts.length = as.length) (ha : Atom.HasAll tops env' as vs) :
    (s.extendAll ts as).Carries tops (env.bind ts vs) env' := by
  induction ha generalizing s env ts with
  | nil =>
    obtain rfl := length_eq_zero_iff.mp hlen
    exact h
  | cons ha _ ih =>
    cases ts with
    | nil => cases hlen
    | cons t ts => exact ih (h.extend ha) (Nat.succ.inj hlen)

end Subst

namespace Env

def Below (env : Env) (n : Nat) : Prop := ∀ ⦃t v⦄, env.lookup t = some v → t.index < n

theorem Below.mono {env : Env} {n n' : Nat} (h : env.Below n) (hn : n ≤ n') : env.Below n' :=
  fun _ _ ht => lt_of_lt_of_le (h ht) hn

theorem Below.bind {env : Env} {n : Nat} (h : env.Below n) {vars : List Temp}
    (hvars : ∀ v ∈ named vars, v.index < n) (vals : List Value) : (env.bind vars vals).Below n := by
  induction vars generalizing env vals with
  | nil => cases vals <;> exact h
  | cons x vars ih =>
    cases vals with
    | nil => exact h
    | cons v vals =>
      refine ih (fun t u hu => ?_) (fun y hy => hvars y ?_) vals
      · rw [← put, lookup_put] at hu
        split at hu
        · rename_i hx
          obtain ⟨rfl, hw⟩ := hx
          exact hvars x (mem_named.mpr ⟨.head .., hw⟩)
        · exact h hu
      · obtain ⟨hy, hw⟩ := mem_named.mp hy
        exact mem_named.mpr ⟨.tail _ hy, hw⟩

/-- The second environment has all values of the first. -/
def Sub (env env' : Env) : Prop := ∀ ⦃t v⦄, env.lookup t = some v → env'.lookup t = some v

theorem Sub.refl (env : Env) : env.Sub env := fun _ _ => id

theorem Sub.put {env env' : Env} (h : env.Sub env') (x : Temp) (v : Value) :
    (env.put x v).Sub (env'.put x v) := by
  intro t u hu
  rw [lookup_put] at hu ⊢
  split at hu
  · rename_i hx
    rwa [if_pos hx]
  · rename_i hx
    rw [if_neg hx]
    exact h hu

theorem Sub.bind {env env' : Env} (h : env.Sub env') (vars : List Temp) (vals : List Value) :
    (env.bind vars vals).Sub (env'.bind vars vals) := by
  induction vars generalizing env env' vals with
  | nil => cases vals <;> exact h
  | cons x vars ih =>
    cases vals with
    | nil => exact h
    | cons v vals => exact ih (h.put x v) vals

theorem Sub.bind_right {env env' : Env} (h : env.Sub env') {n : Nat} (hbelow : env.Below n)
    {vars : List Temp} (hvars : ∀ v ∈ named vars, n ≤ v.index) (vals : List Value) :
    env.Sub (env'.bind vars vals) := by
  induction vars generalizing env' vals with
  | nil => cases vals <;> exact h
  | cons x vars ih =>
    cases vals with
    | nil => exact h
    | cons v vals =>
      refine ih (fun t u hu => ?_) (fun y hy => hvars y ?_) vals
      · show (env'.put x v).lookup t = some u
        rw [lookup_put, if_neg]
        · exact h hu
        · rintro ⟨rfl, hw⟩
          have := hbelow hu
          have := hvars x (mem_named.mpr ⟨.head .., hw⟩)
          omega
      · obtain ⟨hy, hw⟩ := mem_named.mp hy
        exact mem_named.mpr ⟨.tail _ hy, hw⟩

end Env

section Apply

variable {m : Meaning} {r : Rules} {s : Subst} {env env' : Env} {w w' : World} {e : Result}
  {u : Use} {tops : TopId → List Value → Prop}

theorem Subst.map_apply_empty (as : List Atom) : as.map ({} : Subst).apply = as := by
  rw [funext apply_empty, map_id']

@[simp] theorem Call.apply_empty (c : Call) : c.apply {} = c := by
  rw [Call.apply, Subst.applyAll, Subst.map_apply_empty]

@[simp] theorem Tail.apply_empty (t : Tail) : t.apply {} = t := by
  cases t <;> simp [Tail.apply, Tail.mapAtoms, Subst.map_apply_empty]

theorem Env.Sub.carries (h : env.Sub env') :
    Subst.Carries tops {} env env' := fun _ _ ht => by
  rw [Subst.apply_empty]
  exact h ht

theorem Tail.Simple.apply {alloc : ClosureId → List Value → Value → Prop}
    (h : s.Carries tops env env') {t : Tail} (ht : t.Simple tops alloc env w e w') :
    (t.apply s).Simple tops alloc env' w e w' := by
  cases t with
  | ret | data | prim =>
    obtain ⟨vs, hv, rest⟩ := ht
    exact ⟨vs, h.atoms hv, rest⟩
  | closure k args =>
    obtain ⟨vs, v, hv, rest⟩ := ht
    exact ⟨vs, v, h.atoms hv, rest⟩
  | sel ctor field a =>
    obtain ⟨c, fields, v, ha, rest⟩ := ht
    exact ⟨c, fields, v, h.atom ha, rest⟩
  | call | enter => exact ht.elim

theorem Call.Runs.apply (h : s.Carries m.top env env') {depth : Nat} {c : Call}
    (hc : c.Runs m depth env u w e w') : (c.apply s).Runs m depth env' u w e w' := by
  obtain ⟨vs, n, hv, rest⟩ := hc
  exact ⟨vs, n, h.atoms hv, rest⟩

theorem Tail.Runs.apply (h : s.Carries m.top env env') {room : Nat} {t : Tail}
    (ht : t.Runs m room env u w e w') : (t.apply s).Runs m room env' u w e w' := by
  cases t with
  | call c =>
    obtain ⟨depth, rfl, hc⟩ := ht
    exact ⟨depth, rfl, hc.apply h⟩
  | enter f args =>
    obtain ⟨v, vs, n, hf, hv, rest⟩ := ht
    exact ⟨v, vs, n, h.atom hf, h.atoms hv, rest⟩
  | ret | data | closure | sel | prim => exact ⟨ht.1, ht.2.apply h⟩

theorem Call.Runs.sub (h : env.Sub env') {depth : Nat} {c : Call}
    (hc : c.Runs m depth env u w e w') : c.Runs m depth env' u w e w' := by
  simpa using hc.apply h.carries

theorem Tail.Runs.sub (h : env.Sub env') {room : Nat} {t : Tail}
    (ht : t.Runs m room env u w e w') : t.Runs m room env' u w e w' := by
  simpa using ht.apply h.carries

theorem Atom.Has.sub (h : env.Sub env') {a : Atom} {v : Value} (ha : a.Has tops env v) :
    a.Has tops env' v := by
  simpa using h.carries.atom ha

theorem Code.Runs.sub (h : env.Sub env') {depth cost rank : Nat} {code : Code}
    (hc : code.Runs m r depth cost rank env w e w') :
    code.Runs m r depth cost rank env' w e w' := by
  induction code generalizing cost rank env env' w with
  | done t =>
    obtain ⟨u, hu, ht⟩ := hc
    exact ⟨u, hu, ht.sub h⟩
  | bind vars t rest ih =>
    obtain ⟨hd, u, ⟨hu, he, ht⟩ | ⟨vs, w1, left, hl, ht, hlen, hrest⟩⟩ := hc
    · exact ⟨hd, u, .inl ⟨hu, he, ht.sub h⟩⟩
    · exact ⟨hd, u, .inr ⟨vs, w1, left, hl, ht.sub h, hlen, ih (h.bind vars vs) hrest⟩⟩
  | assert a ctor rest ih =>
    obtain ⟨c, fields, left, ha, hc, hl, hrest⟩ := hc
    exact ⟨c, fields, left, ha.sub h, hc, hl, ih h hrest⟩
  | branch test yes no =>
    obtain ⟨b, u, hb, hu, hrun⟩ := hc
    exact ⟨b, u, hb.sub h, hu, hrun.sub h⟩
  | switch a alts =>
    obtain ⟨c, fields, taken, u, ha, hs, hf, hu, hrun⟩ := hc
    exact ⟨c, fields, taken, u, ha.sub h, hs, hf, hu, hrun.sub h⟩

end Apply

namespace Alts

theorem Legal.mapCalls {σ : Signature} {alts : Alts} (h : alts.Legal σ) (f : Call → Call) :
    (alts.mapCalls f).Legal σ := by
  refine ⟨fun arm harm => ?_, pairwise_map.mpr h.distinct⟩
  obtain ⟨source, hsource, rfl⟩ := mem_map.mp harm
  exact h.ctors source hsource

end Alts

theorem Subst.renameAll_append (s : Subst) {ts us ts' us' : List Temp}
    (hlen : ts.length = us.length) :
    s.renameAll (ts ++ ts') (us ++ us') = (s.renameAll ts us).renameAll ts' us' := by
  induction ts generalizing s us with
  | nil =>
    cases us with
    | nil => rfl
    | cons => cases hlen
  | cons t ts ih =>
    cases us with
    | nil => cases hlen
    | cons u us => exact ih (s.extend t (.temp u)) (Nat.succ.inj hlen)

namespace Fresh

variable {n n' : Nat} {ts us : List Temp}

theorem carries (h : Fresh n ts us n') (hn : 0 < n) {tops : TopId → List Value → Prop} {s : Subst}
    {env env' : Env} (hs : s.Carries tops env env') (hbelow : env'.Below n) {vs : List Value}
    (hlen : vs.length = ts.length) :
    (s.renameAll ts us).Carries tops (env.bind ts vs) (env'.bind us vs) ∧
      (env'.bind us vs).Below n' := by
  induction h generalizing s env env' vs with
  | nil =>
    obtain rfl := length_eq_zero_iff.mp hlen
    exact ⟨hs, hbelow⟩
  | @wildcard n n' t ts us ht _ ih =>
    cases vs with
    | nil => cases hlen
    | cons v vs =>
      have hput (env : Env) : env.put t v = env := by simp [Env.put, ht]
      have hextend : s.extend t (.temp t) = s := by simp [Subst.extend, ht]
      rw [Env.bind_cons, Env.bind_cons, hput, hput]
      simp only [Subst.renameAll, map_cons, Subst.extendAll, hextend]
      exact ih hn hs hbelow (Nat.succ.inj hlen)
  | @cons n n' t ts us _ ih =>
    cases vs with
    | nil => cases hlen
    | cons v vs =>
      have hw : Temp.isWildcard ⟨n⟩ = false := by simp [Temp.isWildcard]; omega
      have hown : (Atom.temp ⟨n⟩).Has tops (env'.put ⟨n⟩ v) v := by
        simp [Atom.Has, Env.lookup_put, hw]
      have hsub : env'.Sub (env'.put ⟨n⟩ v) := fun x y hx => by
        have hne : (⟨n⟩ : Temp) ≠ x := by
          rintro rfl
          exact Nat.lt_irrefl _ (hbelow hx)
        simpa [Env.lookup_put, hne] using hx
      have hbelow' : (env'.put ⟨n⟩ v).Below (n + 1) := fun x y hx => by
        rw [Env.lookup_put] at hx
        split at hx
        · rename_i hxn
          rw [← hxn.1]
          exact Nat.lt_succ_self n
        · exact Nat.lt_succ_of_lt (hbelow hx)
      have hs' : s.Carries tops env (env'.put ⟨n⟩ v) := fun _ _ hx => (hs hx).sub hsub
      exact ih (Nat.succ_pos n) (hs'.extend hown) hbelow' (Nat.succ.inj hlen)

theorem legal (h : Fresh n ts us n') (hn : 0 < n) {τ : Signature} {s : Subst}
    {scope scope' : List Temp} (hs : ∀ x ∈ scope, (s.apply (.temp x)).Legal τ scope') :
    ∀ x ∈ scope ++ named ts, ((s.renameAll ts us).apply (.temp x)).Legal τ
      (scope' ++ named us) := by
  induction h generalizing s scope scope' with
  | nil => simpa [named, Subst.renameAll, Subst.extendAll] using hs
  | @wildcard n n' t ts us ht _ ih =>
    have hextend : s.extend t (.temp t) = s := by simp [Subst.extend, ht]
    have hnamed (xs : List Temp) : named (t :: xs) = named xs := by simp [named, ht]
    simp only [Subst.renameAll, map_cons, Subst.extendAll, hextend, hnamed]
    exact ih hn hs
  | @cons n n' t ts us _ ih =>
    have hw : Temp.isWildcard ⟨n⟩ = false := by simp [Temp.isWildcard]; omega
    have hus : named (⟨n⟩ :: us) = ⟨n⟩ :: named us := by simp [named, hw]
    have hs' : ∀ x ∈ scope ++ named [t],
        ((s.extend t (.temp ⟨n⟩)).apply (.temp x)).Legal τ (scope' ++ [⟨n⟩]) := by
      intro x hx
      by_cases htx : t = x ∧ t.isWildcard = false
      · obtain ⟨rfl, ht⟩ := htx
        rw [Subst.apply_extend_self ht]
        exact mem_append_right _ (mem_singleton_self _)
      · have hmem : x ∈ scope := by
          rw [mem_append, mem_named, mem_singleton] at hx
          obtain hx | ⟨rfl, hx⟩ := hx
          · exact hx
          · exact absurd ⟨rfl, hx⟩ htx
        have := hs x hmem
        simp only [Subst.apply, Subst.lookup_extend, if_neg htx] at this ⊢
        exact this.mono (.refl τ) fun y hy => mem_append_left _ hy
    have := ih (Nat.succ_pos n) hs'
    rw [append_assoc, ← named_append, append_assoc] at this
    rw [hus]
    exact this

end Fresh

section Copies

variable {σ τ : Signature} {s : Subst} {scope scope' : List Temp}

theorem Atom.Legal.apply (hσ : σ.Le τ) (hs : ∀ x ∈ scope, (s.apply (.temp x)).Legal τ scope')
    {a : Atom} (h : a.Legal σ scope) : (s.apply a).Legal τ scope' := by
  cases a with
  | temp t => exact hs t h
  | top r => exact hσ.top h
  | word | flag | external => trivial

theorem Tail.atoms_mapAtoms (f : Atom → Atom) (t : Tail) :
    (t.mapAtoms f).atoms = t.atoms.map f := by
  cases t <;> rfl

theorem Tail.Shaped.mapAtoms {t : Tail} (h : t.Shaped σ) (f : Atom → Atom) :
    (t.mapAtoms f).Shaped σ := by
  cases t with
  | call | closure => simpa [Tail.mapAtoms, Tail.Shaped] using h
  | data => exact ⟨h.1, by simpa using h.2⟩
  | sel => exact h
  | ret | enter | prim => trivial

theorem Tail.Legal.apply (hσ : σ.Le τ) (hs : ∀ x ∈ scope, (s.apply (.temp x)).Legal τ scope')
    {t : Tail} (h : t.Legal σ scope) : (t.apply s).Legal τ scope' := by
  refine ⟨fun a ha => ?_, (h.shaped.mono hσ).mapAtoms _⟩
  rw [Tail.apply, Tail.atoms_mapAtoms, mem_map] at ha
  obtain ⟨b, hb, rfl⟩ := ha
  exact (h.atoms b hb).apply hσ hs

theorem Call.Legal.apply (hσ : σ.Le τ) (hs : ∀ x ∈ scope, (s.apply (.temp x)).Legal τ scope')
    {c : Call} (h : c.Legal σ scope) : (c.apply s).Legal τ scope' :=
  Tail.Legal.apply hσ hs h

namespace Code

theorem size_copyFresh (code : Code) (m : Temps) (s : Subst) :
    m.size ≤ (code.copyFresh m s).2.1.size := by
  induction code generalizing m s with
  | bind vars t rest ih =>
    exact le_trans (m.freshLikeAll_fresh vars).le (ih _ _)
  | assert a ctor rest ih => exact ih m s
  | done | branch | switch => exact le_rfl

theorem Legal.copyFresh (hσ : σ.Le τ) {code : Code} (h : code.Legal σ scope) {m : Temps}
    (hpos : 0 < m.size) (hm : (code.copyFresh m s).2.1.size ≤ τ.temps)
    (hs : ∀ x ∈ scope, (s.apply (.temp x)).Legal τ scope')
    (hscope : ∀ x ∈ scope', x.index < m.size) : (code.copyFresh m s).1.Legal τ scope' := by
  induction code generalizing scope scope' m s with
  | done t => exact Tail.Legal.apply hσ hs h
  | bind vars t rest ih =>
    obtain ⟨ht, hvars, hrest⟩ := h
    have hfresh := m.freshLikeAll_fresh vars
    have hsize := rest.size_copyFresh (m.freshLikeAll vars).2
      (s.renameAll vars (m.freshLikeAll vars).1)
    refine ⟨ht.apply hσ hs, hfresh.binders hscope (le_trans hsize hm),
      ih hrest (lt_of_lt_of_le hpos hfresh.le) hm (hfresh.legal hpos hs) fun x hx => ?_⟩
    obtain hx | hx := mem_append.mp hx
    · exact lt_of_lt_of_le (hscope x hx) hfresh.le
    · exact (hfresh.bounds hx).2
  | assert a c rest ih =>
    exact ⟨h.1.apply hσ hs, hσ.ctor h.2.1, ih h.2.2 hpos hm hs hscope⟩
  | branch test yes no => exact ⟨h.1.apply hσ hs, h.2.1.apply hσ hs, h.2.2.apply hσ hs⟩
  | switch a alts =>
    refine ⟨h.1.apply hσ hs, fun c hc => ?_, (h.2.2.mono hσ).mapCalls _⟩
    rw [Alts.calls_mapCalls, mem_map] at hc
    obtain ⟨d, hd, rfl⟩ := hc
    exact (h.2.1 d hd).apply hσ hs

theorem Runs.copyFresh {meaning : Meaning} {r : Rules} {depth cost rank : Nat} {code : Code}
    {env env' : Env} {w w' : World} {e : Result}
    (h : code.Runs meaning r depth cost rank env w e w') {m : Temps} (hpos : 0 < m.size)
    (hs : s.Carries meaning.top env env') (hbelow : env'.Below m.size) :
    (code.copyFresh m s).1.Runs meaning r depth cost rank env' w e w' := by
  induction code generalizing cost rank env env' w m s with
  | done t =>
    obtain ⟨u, hu, ht⟩ := h
    exact ⟨u, hu, ht.apply hs⟩
  | bind vars t rest ih =>
    have hfresh := m.freshLikeAll_fresh vars
    obtain ⟨hd, u, ⟨hu, he, ht⟩ | ⟨vs, w1, left, hl, ht, hlen, hrest⟩⟩ := h
    · exact ⟨hd, u, .inl ⟨hu, he, ht.apply hs⟩⟩
    · obtain ⟨hs', hbelow'⟩ := hfresh.carries hpos hs hbelow hlen
      exact ⟨hd, u, .inr ⟨vs, w1, left, hl, ht.apply hs, hlen.trans hfresh.length_eq.symm,
        ih hrest (lt_of_lt_of_le hpos hfresh.le) hs' hbelow'⟩⟩
  | assert a ctor rest ih =>
    obtain ⟨c, fields, left, ha, hc, hl, hrest⟩ := h
    exact ⟨c, fields, left, hs.atom ha, hc, hl, ih hrest hpos hs hbelow⟩
  | branch test yes no =>
    obtain ⟨b, u, hb, hu, hrun⟩ := h
    refine ⟨b, u, hs.atom hb, hu, ?_⟩
    cases b <;> exact hrun.apply hs
  | switch a alts =>
    obtain ⟨c, fields, taken, u, ha, hsel, hf, hu, hrun⟩ := h
    refine ⟨c, fields, taken.apply s, u, hs.atom ha, ?_, ?_, hu, hrun.apply hs⟩
    · rw [Alts.select_mapCalls, hsel]
      rfl
    · rwa [Alts.ctors_mapCalls]

end Code

end Copies

end MonadicIR
