import MonadicIR.Proofs.Semantics

namespace MonadicIR

namespace Env

variable {env env' : Env} {t : Temp} {vars : List Temp} {vals vals' : List Value}

@[simp] theorem lookup_nil : lookup [] t = none := rfl

theorem lookup_cons {x : Temp} {v : Value} :
    lookup ((x, v) :: env) t = if x = t then some v else env.lookup t := by
  unfold lookup
  by_cases h : x = t <;> simp [h]

def put (env : Env) (x : Temp) (v : Value) : Env := if x.isWildcard then env else (x, v) :: env

theorem bind_cons {x : Temp} {v : Value} :
    env.bind (x :: vars) (v :: vals) = (env.put x v).bind vars vals := rfl

theorem lookup_put {x : Temp} {v : Value} :
    (env.put x v).lookup t = if x = t ∧ x.isWildcard = false then some v else env.lookup t := by
  unfold put
  split <;> simp_all [lookup_cons]

theorem lookup_bind_of_not_mem (h : t ∉ vars) : (env.bind vars vals).lookup t = env.lookup t := by
  induction vars generalizing env vals with
  | nil => cases vals <;> rfl
  | cons x vars ih =>
    cases vals with
    | nil => rfl
    | cons v vals =>
      rw [bind_cons, ih fun hm => h (.tail _ hm), lookup_put, if_neg]
      exact fun hx => h (hx.1 ▸ .head ..)

theorem bind_related {R : Value → Value → Prop} (hvals : List.Forall₂ R vals vals')
    (hlen : vars.length = vals.length) (ht : t.isWildcard = false)
    (henv : t ∉ vars → ∀ v, env.lookup t = some v → ∃ v', env'.lookup t = some v' ∧ R v v')
    {v : Value} (hv : (env.bind vars vals).lookup t = some v) :
    ∃ v', (env'.bind vars vals').lookup t = some v' ∧ R v v' := by
  induction hvals generalizing env env' vars with
  | nil =>
    obtain rfl := List.length_eq_zero_iff.mp hlen
    exact henv (by simp) v hv
  | @cons u u' us us' hu _ ih =>
    cases vars with
    | nil => cases hlen
    | cons x vars =>
      rw [bind_cons] at hv ⊢
      refine ih (Nat.succ.inj hlen) (fun hmem w hw => ?_) hv
      rw [lookup_put] at hw ⊢
      split at hw
      · rename_i hx
        obtain rfl := Option.some.inj hw
        exact ⟨u', if_pos hx, hu⟩
      · rename_i hx
        have hne : x ≠ t := fun h => hx ⟨h, h ▸ ht⟩
        rw [if_neg hx]
        exact henv (by simpa [Ne.symm hne] using hmem) w hw

theorem bind_append {vars' : List Temp} (hlen : vars.length = vals.length) :
    env.bind (vars ++ vars') (vals ++ vals') = (env.bind vars vals).bind vars' vals' := by
  induction vars generalizing env vals with
  | nil =>
    obtain rfl := List.length_eq_zero_iff.mp hlen.symm
    rfl
  | cons x vars ih =>
    cases vals with
    | nil => cases hlen
    | cons v vals => exact ih (Nat.succ.inj hlen)

theorem lookup_bind {v : Value} (h : (env.bind vars vals).lookup t = some v) :
    v ∈ vals ∨ env.lookup t = some v := by
  induction vars generalizing env vals with
  | nil =>
    cases vals <;> exact .inr h
  | cons x vars ih =>
    cases vals with
    | nil => exact .inr h
    | cons u vals =>
      rw [bind_cons] at h
      obtain h | h := ih h
      · exact .inl (.tail _ h)
      · rw [lookup_put] at h
        split at h
        · obtain rfl := Option.some.inj h
          exact .inl (.head ..)
        · exact .inr h

theorem map_lookup_bind (hnodup : vars.Nodup) (hnamed : ∀ x ∈ vars, x.isWildcard = false)
    (hlen : vars.length = vals.length) :
    vars.map (env.bind vars vals).lookup = vals.map some := by
  induction vars generalizing env vals with
  | nil =>
    obtain rfl := List.length_eq_zero_iff.mp hlen.symm
    rfl
  | cons x vars ih =>
    cases vals with
    | nil => cases hlen
    | cons v vals =>
      obtain ⟨hx, hnodup⟩ := List.nodup_cons.mp hnodup
      have hhead : (env.put x v).lookup x = some v :=
        lookup_put.trans (if_pos ⟨rfl, hnamed x (.head ..)⟩)
      rw [bind_cons, List.map_cons, List.map_cons, lookup_bind_of_not_mem hx, hhead,
        ih hnodup (fun y hy => hnamed y (.tail _ hy)) (Nat.succ.inj hlen)]

def Named (env : Env) : Prop := ∀ t v, env.lookup t = some v → t.isWildcard = false

theorem Named.nil : Named [] := fun _ _ h => nomatch h

theorem Named.bind (h : env.Named) (vars : List Temp) (vals : List Value) :
    (env.bind vars vals).Named := by
  induction vars generalizing env vals with
  | nil => cases vals <;> exact h
  | cons x vars ih =>
    cases vals with
    | nil => exact h
    | cons v vals =>
      refine ih (fun t u hu => ?_) vals
      rw [← put, lookup_put] at hu
      split at hu
      · rename_i hx
        exact hx.1 ▸ hx.2
      · exact h t u hu

/-- The environments have the same values for these variables. -/
def AgreesOn (xs : List Temp) (env env' : Env) : Prop := ∀ x ∈ xs, env'.lookup x = env.lookup x

end Env

theorem Atom.hasAll_temps {tops : TopId → List Value → Prop} {env : Env} {xs : List Temp}
    {vs : List Value} : HasAll tops env (xs.map temp) vs ↔ xs.map env.lookup = vs.map some := by
  rw [HasAll, List.forall₂_map_left_iff]
  induction xs generalizing vs with
  | nil => cases vs <;> simp
  | cons x xs ih =>
    cases vs with
    | nil => simp
    | cons v vs =>
      rw [List.forall₂_cons, ih]
      simp [Has]

end MonadicIR
