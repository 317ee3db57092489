import MonadicIR.Proofs.Correspondence
import MonadicIR.Proofs.Environment
import MonadicIR.Proofs.Pruning

namespace MonadicIR

open Program Usage List

theorem forall₂_keep {α β : Type} {R : α → β → Prop} {as : List α} {bs : List β}
    (h : List.Forall₂ R as bs) (flags : List Bool) : List.Forall₂ R (keep as flags)
    (keep bs flags) := by
  induction h generalizing flags with
  | nil => cases flags <;> exact .nil
  | cons hab _ ih =>
    cases flags with
    | nil => exact .nil
    | cons u us => cases u <;> simp [keep, hab, ih us]

namespace Usage

theorem forall₂_kept {α β : Type} {R : α → β → Prop} {as : List α} {bs : List β} (pruned : Usage)
    (d : DefnId) (h : List.Forall₂ R as bs) : List.Forall₂ R (pruned.kept d as)
    (pruned.kept d bs) := by
  unfold kept
  split
  · exact forall₂_keep h _
  · exact h

theorem keep_map {α β : Type} (f : α → β) (items : List α) (flags : List Bool) :
    keep (items.map f) flags = (keep items flags).map f := by
  induction items generalizing flags with
  | nil => cases flags <;> rfl
  | cons a as ih =>
    cases flags with
    | nil => rfl
    | cons u us => cases u <;> simp [keep, ih]

theorem kept_map {α β : Type} (pruned : Usage) (d : DefnId) (f : α → β) (items : List α) :
    pruned.kept d (items.map f) = (pruned.kept d items).map f := by
  unfold kept
  split
  · exact keep_map ..
  · rfl

theorem keep_replicate {α : Type} (items : List α) :
    keep items (replicate items.length true) = items := by
  induction items with
  | nil => rfl
  | cons a as ih => simp [keep, replicate_succ, ih]

theorem kept_removable {α : Type} {usage : Usage} {d : DefnId} {flags : List Bool}
    (hflags : usage[d]? = some flags) {items : List α} (hlen : flags.length = items.length) :
    usage.removable.kept d items = keep items flags := by
  by_cases hall : flags.all id = true
  · have hnone : usage.removable[d]? = none := by
      refine Option.eq_none_iff_forall_ne_some.mpr fun fl hfl => ?_
      obtain ⟨h1, h2⟩ := getElem?_removable.mp hfl
      obtain rfl := Option.mem_unique hflags h1
      simp [hall] at h2
    have htrue : flags = replicate items.length true :=
      eq_replicate_iff.mpr ⟨hlen, by simpa using hall⟩
    rw [kept_of_none hnone, htrue, keep_replicate]
  · rw [kept_of_some (getElem?_removable.mpr ⟨hflags, by simpa using hall⟩)]

/-- With an argument for every slot, the arguments that count are those that are still passed. -/
theorem usedArgs_eq_kept {p : Program} {usage : Usage} (hsized : p.Sized usage) {d : DefnId}
    {args : List Atom} (hl : args.length = (p.slots d).length) :
    usage.usedArgs d args = usage.removable.kept d args := by
  unfold usedArgs
  split
  · rename_i flags hflags
    have hlen : flags.length = args.length := (hsized d flags hflags).trans hl.symm
    rw [hlen, Nat.sub_self, replicate_zero, append_nil, kept_removable hflags hlen]
  · rename_i hnone
    refine (kept_of_none (Option.eq_none_iff_forall_ne_some.mpr fun fl hfl => ?_) _).symm
    simp [hnone, getElem?_removable] at hfl

end Usage

theorem marked_of_used {used earlier xs : List Temp} {t : Temp} (ht : t ∈ used)
    (hw : t.isWildcard = false) (hnodup : (named xs).Nodup) (hearlier : t ∈ xs → t ∉ earlier) :
    List.Forall₂ (fun x f => x = t → f = true) xs (Usage.mark used earlier xs) := by
  induction xs generalizing earlier with
  | nil => exact .nil
  | cons x xs ih =>
    refine .cons ?_ (ih (hnodup.sublist ((sublist_cons_self x xs).filter _)) fun hmem => ?_)
    · rintro rfl
      simp [ht, hearlier (.head ..)]
    · rw [mem_cons, not_or]
      refine ⟨?_, hearlier (.tail _ hmem)⟩
      rintro rfl
      simp only [named, filter_cons, hw, Bool.not_false, if_true, nodup_cons,
        mem_filter] at hnodup
      exact hnodup.1 ⟨hmem, trivial⟩

theorem Usage.Marks.of_marked {P : Temp → Prop} {xs : List Temp} {found flags : List Bool}
    (h : Marks flags found) (hx : List.Forall₂ (fun x f => P x → f = true) xs found) :
    List.Forall₂ (fun x f => P x → f = true) xs flags := by
  induction hx generalizing flags with
  | nil =>
    cases h
    exact .nil
  | cons hx _ ih =>
    obtain _ | ⟨hf, hrest⟩ := h
    exact .cons (hf ∘ hx) (ih hrest)

theorem Env.bind_keep_related {R : Value → Value → Prop} {env env' : Env} {t : Temp}
    {vars : List Temp} {flags : List Bool} {vals vals' : List Value}
    (hkeep : List.Forall₂ (fun x f => x = t → f = true) vars flags)
    (hvals : List.Forall₂ R vals vals') (hlen : vars.length = vals.length)
    (henv : ∀ v, env.lookup t = some v → ∃ v', env'.lookup t = some v' ∧ R v v') {v : Value}
    (hv : (env.bind vars vals).lookup t = some v) :
    ∃ v', (env'.bind (keep vars flags) (keep vals' flags)).lookup t = some v' ∧ R v v' := by
  induction hkeep generalizing env env' vals vals' with
  | nil =>
    obtain rfl := length_eq_zero_iff.mp hlen.symm
    cases hvals
    exact henv v hv
  | @cons x f vars flags hf _ ih =>
    cases hvals with
    | nil => cases hlen
    | @cons u u' us us' hu hus =>
      rw [bind_cons] at hv
      cases f with
      | false =>
        refine ih hus (Nat.succ.inj hlen) (fun w hw => henv w ?_) hv
        rwa [lookup_put, if_neg fun hx => Bool.false_ne_true (hf hx.1)] at hw
      | true =>
        simp only [keep, if_true]
        rw [bind_cons]
        refine ih hus (Nat.succ.inj hlen) (fun w hw => ?_) hv
        rw [lookup_put] at hw ⊢
        split at hw
        · rename_i hx
          obtain rfl := Option.some.inj hw
          exact ⟨u', if_pos hx, hu⟩
        · rename_i hx
          rw [if_neg hx]
          exact henv w hw

namespace Value

mutual

/-- The value after the removal of stored fields. -/
def shrink (pruned : Usage) : Value → Value
  | data ctor fields => data ctor (shrinkAll pruned fields)
  | closure k stored => closure k (pruned.kept (.closure k) (shrinkAll pruned stored))
  | v => v

def shrinkAll (pruned : Usage) : List Value → List Value
  | [] => []
  | v :: vs => shrink pruned v :: shrinkAll pruned vs

end

theorem shrinkAll_eq (pruned : Usage) (vs : List Value) :
    shrinkAll pruned vs = vs.map (shrink pruned) := by
  induction vs with
  | nil => rfl
  | cons v vs ih => rw [shrinkAll, ih, map_cons]

mutual

/-- Are all closures in the value retained ones, with a value for every stored field? -/
def Fits (p : Program) : Value → Prop
  | data _ fields => FitsAll p fields
  | closure k stored => p.Retained (.closure k) ∧
      (∃ closure, p.closures[k.index]? = some closure ∧ closure.stored.length = stored.length) ∧
      FitsAll p stored
  | _ => True

def FitsAll (p : Program) : List Value → Prop
  | [] => True
  | v :: vs => Fits p v ∧ FitsAll p vs

end

theorem fitsAll_iff {p : Program} {vs : List Value} : FitsAll p vs ↔ ∀ v ∈ vs, v.Fits p := by
  induction vs with
  | nil => simp [FitsAll]
  | cons v vs ih => simp [FitsAll, ih]

mutual

theorem observe_shrink (pruned : Usage) : ∀ v : Value, (v.shrink pruned).observe = v.observe
  | word _ | flag _ | external _ | closure .. => rfl
  | data _ fields => by
    rw [shrink, observe, observe, observeAll_shrinkAll pruned fields]

theorem observeAll_shrinkAll (pruned : Usage) :
    ∀ vs : List Value, observeAll (shrinkAll pruned vs) = observeAll vs
  | [] => rfl
  | v :: vs => by
    rw [shrinkAll, observeAll, observeAll, observe_shrink pruned v, observeAll_shrinkAll pruned vs]

end

end Value

/-- Does the property hold of all values that are returned? -/
def Ending.Each (P : Value → Prop) : Result → Prop
  | .returned vs => ∀ v ∈ vs, P v
  | .halted => True

theorem Prim.effect_each {P : Value → Prop} (hP : ∀ x, P (.ofScalar x)) {q : Prim}
    {args : List Value}
    {w w' : World} {e : Result} (h : q.effect args w = some (e, w')) : Ending.Each P e := by
  cases q.request args with
  | load | ticks =>
    cases h
    exact forall_mem_singleton.mpr (hP (.word _))
  | store | print =>
    cases h
    exact forall_mem_nil _
  | halt =>
    cases h
    trivial
  | loop => cases h
  | value _ heffect =>
    obtain ⟨v, -, rfl, -⟩ := computed_eq_some_iff.mp ((heffect w).symm.trans h)
    exact forall_mem_singleton.mpr (hP v)

theorem Prim.effect_map {F : Value → Value} (hF : ∀ x, F (.ofScalar x) = .ofScalar x)
    (hscalar : ∀ v, (F v).scalar? = v.scalar?) (hobserve : ∀ v, (F v).observe = v.observe)
    {q : Prim}
    {args : List Value} {w w' : World} {e : Result} (h : q.effect args w = some (e, w')) :
    q.effect (args.map F) w = some (e.map (List.map F), w') := by
  have hword (n : Word) : F (.word n) = .word n := hF (.word n)
  cases q.request args with
  | load | store | print | ticks | halt =>
    cases h
    simp [hword, Ending.map, hobserve]
  | loop => cases h
  | value _ heffect =>
    obtain ⟨v, hv, rfl, rfl⟩ := computed_eq_some_iff.mp ((heffect w).symm.trans h)
    have hargs : (args.map F).mapM Value.scalar? = args.mapM Value.scalar? := by
      rw [mapM_map]
      exact congrArg (fun f => args.mapM f) (funext hscalar)
    simp [effect_of_compute (hargs ▸ hv), Ending.map, hF]

/-- The second program is the first one without its unused arguments. -/
structure Prunes (p : Program) (usage : Usage) (q : Program) : Prop where
  current : p.Current
  checked : p.check = .ok ()
  accounts : p.Accounts usage (Component.allMembers p.components.toList)
  result : q = p.prunedBy usage.removable

/-- Values of top-levels have lost stored fields. -/
def TopsShrink (p : Program) (usage : Usage) (tops tops' : TopId → List Value → Prop) : Prop :=
  ∀ ⦃t vs⦄, p.Retained (.top t) → tops t vs →
    tops' t (vs.map (Value.shrink usage.removable)) ∧ ∀ v ∈ vs, v.Fits p

/-- The second environment has the values of these variables. -/
structure Env.Shrinks (p : Program) (usage : Usage) (uses : List Temp) (env env' : Env) : Prop where
  named : env.Named
  fits : ∀ t v, env.lookup t = some v → v.Fits p
  found : ∀ t ∈ uses, ∀ v, env.lookup t = some v →
    env'.lookup t = some (v.shrink usage.removable)

theorem Env.Shrinks.mono {p : Program} {usage : Usage} {uses uses' : List Temp} {env env' : Env}
    (h : Env.Shrinks p usage uses env env') (hsub : ∀ t ∈ uses', t ∈ uses) :
    Env.Shrinks p usage uses' env env' :=
  ⟨h.named, h.fits, fun t ht => h.found t (hsub t ht)⟩

section Operands

variable {p : Program} {usage : Usage} {tops tops' : TopId → List Value → Prop} {env env' : Env}
  {uses : List Temp}

variable (htops : TopsShrink p usage tops tops')

include htops

theorem Atom.Has.fits (henv : ∀ t v, env.lookup t = some v → v.Fits p) {a : Atom} {v : Value}
    (h : a.Has tops env v) (hret : ∀ r, a.top? = some r → p.Retained (.top r.top)) : v.Fits p := by
  cases a with
  | temp t => exact henv t v h
  | top r =>
    obtain ⟨vs, ht, hv⟩ := h
    exact (htops (hret r rfl) ht).2 v (mem_of_getElem? hv)
  | word | flag | external =>
    obtain rfl : v = _ := h
    trivial

theorem Atom.Has.shrink (henv : Env.Shrinks p usage uses env env') {a : Atom} {v : Value}
    (h : a.Has tops env v) (huses : ∀ t, a.temp? = some t → t ∈ uses)
    (hret : ∀ r, a.top? = some r → p.Retained (.top r.top)) :
    a.Has tops' env' (v.shrink usage.removable) := by
  cases a with
  | temp t => exact henv.found t (huses t rfl) v h
  | top r =>
    obtain ⟨vs, ht, hv⟩ := h
    exact ⟨_, (htops (hret r rfl) ht).1, by simp [hv]⟩
  | word | flag | external =>
    obtain rfl : v = _ := h
    rfl

theorem Atom.HasAll.fits (henv : ∀ t v, env.lookup t = some v → v.Fits p) {args : List Atom}
    {vs : List Value} (h : Atom.HasAll tops env args vs)
    (hret : ∀ a ∈ args, ∀ r, a.top? = some r → p.Retained (.top r.top)) : ∀ v ∈ vs, v.Fits p := by
  induction h with
  | nil => simp
  | cons ha _ ih =>
    rintro v (_ | ⟨_, hv⟩)
    · exact ha.fits htops henv (hret _ (.head ..))
    · exact ih (fun a ha => hret a (.tail _ ha)) v hv

theorem Atom.HasAll.shrink (henv : Env.Shrinks p usage uses env env') {args : List Atom}
    {vs : List Value} (h : Atom.HasAll tops env args vs)
    (huses : ∀ t ∈ args.filterMap Atom.temp?, t ∈ uses)
    (hret : ∀ a ∈ args, ∀ r, a.top? = some r → p.Retained (.top r.top)) :
    Atom.HasAll tops' env' args (vs.map (Value.shrink usage.removable)) := by
  induction h with
  | nil => exact .nil
  | cons ha _ ih =>
    refine .cons (ha.shrink htops henv (fun t ht => huses t ?_) (hret _ (.head ..)))
      (ih (fun t ht => huses t ?_) fun a ha => hret a (.tail _ ha))
    · exact mem_filterMap.mpr ⟨_, .head .., ht⟩
    · obtain ⟨a, ha, hat⟩ := mem_filterMap.mp ht
      exact mem_filterMap.mpr ⟨a, .tail _ ha, hat⟩

end Operands

namespace Prunes

variable {p q : Program} {usage : Usage} {tops tops' : TopId → List Value → Prop} {env env' : Env}
  {w w' : World} {e : Result} {d : DefnId}

theorem slots_block {b : BlockId} {block : Block} (hb : p.blocks[b.index]? = some block) :
    p.slots (.block b) = block.params := by
  simp [slots, hb]

theorem slots_closure {k : ClosureId} {closure : Closure}
    (hk : p.closures[k.index]? = some closure) : p.slots (.closure k) = closure.stored := by
  simp [slots, hk]

variable (h : Prunes p usage q)

include h

theorem simple (htops : TopsShrink p usage tops tops') {t : Tail}
    (henv : Env.Shrinks p usage (usage.tailUses t) env env') (hret : ∀ d ∈ t.refs, p.Retained d)
    (hcheck : p.checkTail d t = .ok ()) (ht : t.Simple tops Allocates env w e w') :
    (usage.removable.pruneTail t).Simple tops' Allocates env' w
        (e.map (List.map (Value.shrink usage.removable))) w' ∧ Ending.Each (Value.Fits p) e := by
  have htop : ∀ a ∈ t.atoms, ∀ r, a.top? = some r → p.Retained (.top r.top) := fun a ha r hr =>
    hret _ (Tail.top_mem_refs ha hr)
  cases t with
  | ret args =>
    obtain ⟨vs, hv, rfl, rfl⟩ := ht
    exact ⟨⟨_, hv.shrink htops henv (fun _ => id) htop, rfl, rfl⟩, hv.fits htops henv.fits htop⟩
  | data ctor args =>
    obtain ⟨vs, hv, rfl, rfl⟩ := ht
    refine ⟨⟨_, hv.shrink htops henv (fun _ => id) htop, ?_, rfl⟩, ?_⟩
    · simp [Ending.map, Value.shrink, Value.shrinkAll_eq]
    · simpa [Ending.Each, Value.Fits, Value.fitsAll_iff] using hv.fits htops henv.fits htop
  | closure k args =>
    obtain ⟨vs, v, hv, rfl, rfl, rfl⟩ := ht
    obtain ⟨closure, hk, hl⟩ := checkShape_closure.mp (checkTail_eq_ok_iff.mp hcheck).2
    have hslots : args.length = (p.slots (.closure k)).length := by rw [slots_closure hk, hl]
    have hused := usage.usedArgs_eq_kept h.accounts.sized hslots
    have hsub := usage.removable.kept_sublist (.closure k) args
    have hkept : Atom.HasAll tops env _ _ := forall₂_kept usage.removable (.closure k) hv
    refine ⟨⟨_, _, hkept.shrink htops henv ?_ fun a ha => htop a (hsub.subset ha), rfl, ?_, rfl⟩,
      ?_⟩
    · simp [tailUses, hused]
    · simp [Ending.map, Value.shrink, Value.shrinkAll_eq, kept_map]
    · have hfits := hv.fits htops henv.fits htop
      simpa [Ending.Each, Value.Fits, Value.fitsAll_iff, hk, hl, hv.length_eq] using
        ⟨hret _ (by simp [Tail.refs]), hfits⟩
  | sel ctor field a =>
    obtain ⟨c, fields, v, ha, hc, hf, rfl, rfl⟩ := ht
    have huses : ∀ t, a.temp? = some t → t ∈ usage.tailUses (.sel ctor field a) := fun t ht => by
      simp [tailUses, Tail.temps, Tail.atoms, ht]
    have ha' := ha.shrink htops henv huses (htop a (by simp [Tail.atoms]))
    have hfits := ha.fits htops henv.fits (htop a (by simp [Tail.atoms]))
    rw [Value.shrink, Value.shrinkAll_eq] at ha'
    refine ⟨⟨c, _, _, ha', hc, by simp [hf], rfl, rfl⟩, ?_⟩
    simp only [Value.Fits, Value.fitsAll_iff] at hfits
    simpa [Ending.Each] using hfits v (mem_of_getElem? hf)
  | prim pr args =>
    obtain ⟨vs, hv, hw⟩ := ht
    have hw' := Prim.effect_map (F := Value.shrink usage.removable) (by rintro (_ | _) <;> rfl)
      (by rintro (_ | _) <;> rfl) (Value.observe_shrink _) hw
    exact ⟨⟨_, hv.shrink htops henv (fun _ => id) htop, hw'⟩,
      Prim.effect_each (by rintro (_ | _) <;> exact trivial) hw⟩
  | call | enter => exact ht.elim

theorem topWithin (height : Nat) :
    TopsShrink p usage (p.topWithin height) (q.topWithin height) := by
  induction height with
  | zero => exact fun _ _ _ ht => ht.elim
  | succ height ih =>
    rintro t vs hret ⟨top, htop, hl, hs⟩
    obtain ⟨_, htop', hcheck, -⟩ := checkDefn_top.mp (checkDefn_of_retained h.checked hret)
    obtain rfl := Option.mem_unique htop htop'
    have henv : Env.Shrinks p usage (usage.tailUses top.tail) [] [] :=
      ⟨.nil, by simp, by simp⟩
    have hrefs : ∀ d ∈ top.tail.refs, p.Retained d := fun d hd =>
      h.current.retained_of_top hret htop hd
    refine ⟨⟨_, by rw [h.result, tops_prunedBy, htop]; rfl, by simpa using hl,
      fun w => (h.simple ih henv hrefs hcheck (hs w)).1⟩, ?_⟩
    exact (h.simple ih henv hrefs hcheck (hs {})).2

theorem hasTop : TopsShrink p usage p.HasTop q.HasTop := by
  rintro t vs hret ⟨height, ht⟩
  obtain ⟨ht', hfits⟩ := h.topWithin height hret ht
  exact ⟨⟨height, ht'⟩, hfits⟩

/-- What is simulated of blocks and closures, up to so many calls. -/
structure Simulates (p q : Program) (usage : Usage) (calls : Nat) : Prop where
  jump : ∀ {depth n b vs w e w'}, p.Retained (.block b) → (∀ v ∈ vs, v.Fits p) →
    (p.counted calls).jump depth n b vs w e w' →
    (q.counted calls).jump depth n b
        (usage.removable.kept (.block b) (vs.map (Value.shrink usage.removable))) w
        (e.map (List.map (Value.shrink usage.removable))) w' ∧ Ending.Each (Value.Fits p) e
  enter : ∀ {room n v vs w e w'}, v.Fits p → (∀ v ∈ vs, v.Fits p) →
    (p.counted calls).enter room n v vs w e w' →
    (q.counted calls).enter room n (v.shrink usage.removable)
        (vs.map (Value.shrink usage.removable)) w
        (e.map (List.map (Value.shrink usage.removable))) w' ∧ Ending.Each (Value.Fits p) e

variable {calls : Nat}

theorem call (hsim : Simulates p q usage calls) {c : Call} {depth : Nat} {u : Use}
    (henv : Env.Shrinks p usage (usage.callUses c) env env')
    (hret : ∀ d ∈ (Tail.call c).refs, p.Retained d) (hcheck : p.checkTail d (.call c) = .ok ())
    (hrun : c.Runs (p.counted calls) depth env u w e w') :
    (usage.removable.pruneCall c).Runs (q.counted calls) depth env' u w
        (e.map (List.map (Value.shrink usage.removable))) w' ∧ Ending.Each (Value.Fits p) e := by
  obtain ⟨vs, n, hv, rfl, hj⟩ := hrun
  obtain ⟨block, hb, hl⟩ := checkShape_call.mp (checkTail_eq_ok_iff.mp hcheck).2
  have htop : ∀ a ∈ c.args, ∀ r, a.top? = some r → p.Retained (.top r.top) := fun a ha r hr =>
    hret _ (Tail.top_mem_refs (t := .call c) ha hr)
  have hslots : c.args.length = (p.slots (.block c.target)).length := by rw [slots_block hb, hl]
  have hused := usage.usedArgs_eq_kept h.accounts.sized hslots
  have hsub := usage.removable.kept_sublist (.block c.target) c.args
  rw [meaning_top] at hv
  have hkept : Atom.HasAll p.HasTop env _ _ := forall₂_kept usage.removable (.block c.target) hv
  have hfits := hv.fits h.hasTop henv.fits htop
  obtain ⟨hj', he⟩ := hsim.jump (hret _ (Tail.mem_refs_call.mpr (.inl rfl))) hfits hj
  refine ⟨⟨_, n, ?_, by simp [pruneCall], hj'⟩, he⟩
  rw [meaning_top, kept_map]
  exact hkept.shrink h.hasTop henv (by simp [callUses, hused]) fun a ha => htop a (hsub.subset ha)

theorem tail (hsim : Simulates p q usage calls) {t : Tail} {room : Nat} {u : Use}
    (henv : Env.Shrinks p usage (usage.tailUses t) env env') (hret : ∀ d ∈ t.refs, p.Retained d)
    (hcheck : p.checkTail d t = .ok ()) (hrun : t.Runs (p.counted calls) room env u w e w') :
    (usage.removable.pruneTail t).Runs (q.counted calls) room env' u w
        (e.map (List.map (Value.shrink usage.removable))) w' ∧ Ending.Each (Value.Fits p) e := by
  by_cases hsimple : t.isSimple
  · obtain ⟨rfl, ht⟩ := simple_of_runs hsimple hrun
    obtain ⟨ht', he⟩ := h.simple h.hasTop henv hret hcheck ht
    exact ⟨runs_of_simple ht', he⟩
  · cases t with
    | call c =>
      obtain ⟨depth, rfl, hc⟩ := hrun
      obtain ⟨hc', he⟩ := h.call hsim henv hret hcheck hc
      exact ⟨⟨depth, rfl, hc'⟩, he⟩
    | enter f args =>
      obtain ⟨v, vs, n, hf, hv, rfl, hrun⟩ := hrun
      rw [meaning_top] at hf hv
      have htop : ∀ a ∈ (Tail.enter f args).atoms, ∀ r, a.top? = some r → p.Retained (.top r.top) :=
        fun a ha r hr => hret _ (Tail.top_mem_refs ha hr)
      have htopf := htop f (.head ..)
      have htopa : ∀ a ∈ args, ∀ r, a.top? = some r → p.Retained (.top r.top) := fun a ha =>
        htop a (.tail _ ha)
      obtain ⟨hrun', he⟩ := hsim.enter (hf.fits h.hasTop henv.fits htopf)
        (hv.fits h.hasTop henv.fits htopa) hrun
      refine ⟨⟨_, _, n, ?_, ?_, rfl, hrun'⟩, he⟩ <;> rw [meaning_top]
      · refine hf.shrink h.hasTop henv (fun t ht => ?_) htopf
        exact mem_filterMap.mpr ⟨f, .head .., ht⟩
      · refine hv.shrink h.hasTop henv (fun t ht => ?_) htopa
        obtain ⟨a, ha, hat⟩ := mem_filterMap.mp ht
        exact mem_filterMap.mpr ⟨a, .tail _ ha, hat⟩
    | ret | data | closure | sel | prim => exact (hsimple rfl).elim

omit h in
theorem bind {uses vars : List Temp} {vs : List Value} (hlen : vs.length = vars.length)
    (henv : Env.Shrinks p usage (uses.filter (!vars.contains ·)) env env')
    (hvs : ∀ v ∈ vs, v.Fits p) : Env.Shrinks p usage uses (env.bind vars vs)
      (env'.bind vars (vs.map (Value.shrink usage.removable))) := by
  have hnamed := henv.named.bind vars vs
  refine ⟨hnamed, fun t v hv => ?_, fun t ht v hv => ?_⟩
  · exact (Env.lookup_bind hv).elim (hvs v) (henv.fits t v)
  · have hrel : List.Forall₂ (fun v v' => v' = v.shrink usage.removable) vs
        (vs.map (Value.shrink usage.removable)) := by
      rw [List.forall₂_map_right_iff]
      exact List.forall₂_same.mpr fun _ _ => rfl
    obtain ⟨_, hv', rfl⟩ := Env.bind_related hrel hlen.symm (hnamed t v hv) (fun hmem u hu =>
      ⟨_, henv.found t (List.mem_filter.mpr ⟨ht, by simpa using hmem⟩) u hu, rfl⟩) hv
    exact hv'

theorem code (hsim : Simulates p q usage calls) {code : Code} {depth cost rank : Nat}
    {bound : List Temp} (henv : Env.Shrinks p usage (usage.codeUses code) env env')
    (hret : ∀ d ∈ code.refs, p.Retained d) (hcheck : p.checkCode d code bound = .ok ())
    (hrun : code.Runs (p.counted calls) .machine depth cost rank env w e w') :
    (usage.removable.pruneCode code).Runs (q.counted calls) .machine depth cost rank env' w
        (e.map (List.map (Value.shrink usage.removable))) w' ∧ Ending.Each (Value.Fits p) e := by
  induction code generalizing cost rank env env' w bound with
  | done t =>
    obtain ⟨u, hu, ht⟩ := hrun
    obtain ⟨ht', he⟩ := h.tail hsim henv (Code.refs_done.mp hret) hcheck ht
    exact ⟨⟨u, hu, ht'⟩, he⟩
  | bind vars t rest ih =>
    obtain ⟨htail, -, -, -, hrest⟩ := checkCode_bind.mp hcheck
    obtain ⟨hrett, hretr⟩ := Code.refs_bind.mp hret
    have henvt : Env.Shrinks p usage (usage.tailUses t) env env' :=
      henv.mono fun x hx => by simp [codeUses, hx]
    obtain ⟨hd, u, ⟨hu, rfl, ht⟩ | ⟨vs, w1, left, hl, ht, hlen, hr⟩⟩ := hrun
    · obtain ⟨ht', he⟩ := h.tail hsim henvt hrett htail ht
      exact ⟨⟨hd, u, .inl ⟨hu, rfl, ht'⟩⟩, he⟩
    · obtain ⟨ht', hvs⟩ := h.tail hsim henvt hrett htail ht
      have henvr : Env.Shrinks p usage (usage.codeUses rest) (env.bind vars vs)
          (env'.bind vars (vs.map (Value.shrink usage.removable))) := by
        refine bind hlen (henv.mono fun x hx => ?_) hvs
        exact mem_append_left _ hx
      obtain ⟨hr', he⟩ := ih henvr hretr hrest hr
      exact ⟨⟨hd, u, .inr ⟨_, w1, left, hl, ht', by simpa using hlen, hr'⟩⟩, he⟩
  | assert a ctor rest ih =>
    obtain ⟨-, -, hrest⟩ := checkCode_assert.mp hcheck
    obtain ⟨hreta, hretr⟩ := Code.refs_assert.mp hret
    obtain ⟨c, fields, left, ha, hc, hl, hr⟩ := hrun
    rw [meaning_top] at ha
    have ha' := ha.shrink h.hasTop henv (fun t ht => by simp [codeUses, ht]) hreta
    have henvr : Env.Shrinks p usage (usage.codeUses rest) env env' :=
      henv.mono fun x hx => by simp [codeUses, hx]
    obtain ⟨hr', he⟩ := ih henvr hretr hrest hr
    refine ⟨⟨c, Value.shrinkAll usage.removable fields, left, ?_, hc, hl, hr'⟩, he⟩
    rw [meaning_top]
    exact ha'
  | branch test yes no =>
    obtain ⟨-, hcalls⟩ := checkCode_branch.mp hcheck
    obtain ⟨hreta, hretc⟩ := Code.refs_branch.mp hret
    obtain ⟨b, u, ha, hu, hc⟩ := hrun
    rw [meaning_top] at ha
    have ha' := ha.shrink h.hasTop henv (fun t ht => by simp [codeUses, ht]) hreta
    have hmem : (if b then yes else no) ∈ [yes, no] := by cases b <;> simp
    have henvc : Env.Shrinks p usage (usage.callUses (if b then yes else no)) env env' :=
      henv.mono fun x hx => by cases b <;> simp_all [codeUses]
    obtain ⟨hc', he⟩ := h.call hsim henvc (hretc _ hmem) (hcalls _ hmem) hc
    refine ⟨⟨b, u, ?_, hu, ?_⟩, he⟩
    · rw [meaning_top]
      exact ha'
    · cases b <;> exact hc'
  | switch a alts =>
    obtain ⟨-, hcalls, -⟩ := checkCode_switch.mp hcheck
    obtain ⟨hreta, hretc⟩ := Code.refs_switch.mp hret
    obtain ⟨c, fields, taken, u, ha, hsel, hfits, hu, hc⟩ := hrun
    rw [meaning_top] at ha
    have ha' := ha.shrink h.hasTop henv (fun t ht => by simp [codeUses, ht]) hreta
    have hmem : taken ∈ alts.calls := Alts.mem_calls_of_select hsel
    have henvc : Env.Shrinks p usage (usage.callUses taken) env env' := henv.mono fun x hx =>
      mem_append_right _ (mem_flatMap.mpr ⟨taken, hmem, hx⟩)
    obtain ⟨hc', he⟩ := h.call hsim henvc (hretc _ hmem) (hcalls _ hmem) hc
    refine ⟨⟨c, Value.shrinkAll usage.removable fields, usage.removable.pruneCall taken, u, ?_, ?_,
      hfits, hu, hc'⟩, he⟩
    · rw [meaning_top]
      exact ha'
    · rw [Alts.select_mapCalls, hsel]
      rfl

/-- The values for the slots of a definition are found where its body needs them. -/
theorem slotsFound (hnodup : (named (p.slots d)).Nodup) {vs : List Value}
    (hlen : (p.slots d).length = vs.length) (hret : p.Retained d) {t : Temp}
    (ht : t ∈ p.bodyUses usage d) (hw : t.isWildcard = false) {v : Value}
    (hv : (Env.bind [] (p.slots d) vs).lookup t = some v) :
    (Env.bind [] (usage.removable.kept d (p.slots d))
      (usage.removable.kept d (vs.map (Value.shrink usage.removable)))).lookup t =
        some (v.shrink usage.removable) := by
  have hrel : List.Forall₂ (fun v v' => v' = v.shrink usage.removable) vs
      (vs.map (Value.shrink usage.removable)) := by
    rw [forall₂_map_right_iff]
    exact forall₂_same.mpr fun _ _ => rfl
  cases hflags : usage.removable[d]? with
  | none =>
    rw [kept_of_none hflags, kept_of_none hflags]
    obtain ⟨_, hv', rfl⟩ := Env.bind_related hrel hlen hw (by simp) hv
    exact hv'
  | some flags =>
    rw [kept_of_some hflags, kept_of_some hflags]
    have hsettled := h.accounts.settled d hret flags (getElem?_removable.mp hflags).1
    have hmarked := hsettled.of_marked (marked_of_used ht hw hnodup (by simp))
    obtain ⟨_, hv', rfl⟩ := Env.bind_keep_related hmarked hrel hlen (by simp) hv
    exact hv'

theorem simulates (calls : Nat) : Simulates p q usage calls := by
  induction calls with
  | zero => exact ⟨fun _ _ h => h.elim, fun _ _ h => h.elim⟩
  | succ calls ih =>
    refine ⟨?_, ?_⟩
    · rintro depth n b vs w e w' hret hvs ⟨block, hb, hl, hrun⟩
      obtain ⟨_, hb', hnodup, hcheck⟩ :=
        checkDefn_block.mp (checkDefn_of_retained h.checked hret)
      obtain rfl := Option.mem_unique hb hb'
      have hslots := slots_block hb
      have henv : Env.Shrinks p usage (usage.codeUses block.code) (Env.bind [] block.params vs)
          (Env.bind [] (usage.removable.kept (.block b) block.params)
            (usage.removable.kept (.block b) (vs.map (Value.shrink usage.removable)))) := by
        have hnamed := Env.Named.nil.bind block.params vs
        refine ⟨hnamed, fun t v hv => ?_, fun t ht v hv => ?_⟩
        · exact (Env.lookup_bind hv).elim (hvs v) fun h => nomatch h
        · rw [← hslots] at hv hnodup hl ⊢
          exact h.slotsFound hnodup hl hret (by simpa [bodyUses, hb] using ht)
            (hnamed t v (hslots ▸ hv)) hv
      obtain ⟨hrun', he⟩ := h.code ih henv (fun d hd => h.current.retained_of_code hret hb hd)
        hcheck hrun
      refine ⟨⟨_, by rw [h.result, blocks_prunedBy, hb]; rfl, ?_, hrun'⟩, he⟩
      exact usage.removable.length_kept_congr _ (by simpa using hl)
    · rintro room n v vs w e w' hv hvs ⟨k, stored, closure, u, rfl, hk, hl, hu, hrun⟩
      obtain ⟨hret, ⟨_, hk', hstored⟩, hfits⟩ := hv
      obtain rfl := Option.mem_unique hk hk'
      rw [Value.fitsAll_iff] at hfits
      obtain ⟨_, hk', hnodup, hcheck⟩ :=
        checkDefn_closure.mp (checkDefn_of_retained h.checked hret)
      obtain rfl := Option.mem_unique hk hk'
      have hslots := slots_closure hk
      have hparams : vs.length = closure.params.length := by
        simp only [length_append] at hl
        omega
      have hkept : (usage.removable.kept (.closure k) closure.stored).length =
          (usage.removable.kept (.closure k) (stored.map (Value.shrink usage.removable))).length :=
        usage.removable.length_kept_congr _ (by simpa using hstored)
      have hnodup' : (named (p.slots (.closure k))).Nodup := by
        rw [hslots]
        rw [named_append] at hnodup
        exact hnodup.of_append_left
      have henv : Env.Shrinks p usage (usage.tailUses closure.tail)
          (Env.bind [] (closure.stored ++ closure.params) (stored ++ vs))
          (Env.bind [] (usage.removable.kept (.closure k) closure.stored ++ closure.params)
            (usage.removable.kept (.closure k) (stored.map (Value.shrink usage.removable)) ++
              vs.map (Value.shrink usage.removable))) := by
        rw [Env.bind_append hstored, Env.bind_append hkept]
        have hnamed := Env.Named.nil.bind closure.stored stored
        refine bind hparams ⟨hnamed, fun t v hv => ?_, fun t ht v hv => ?_⟩ hvs
        · exact (Env.lookup_bind hv).elim (hfits v) (by simp)
        · have huse : t ∈ p.bodyUses usage (.closure k) := by
            simpa [bodyUses, hk] using mem_of_mem_filter ht
          rw [← hslots] at hv hstored ⊢
          exact h.slotsFound hnodup' hstored hret huse (hnamed t v (hslots ▸ hv)) hv
      obtain ⟨hrun', he⟩ := h.tail ih henv
        (fun d hd => h.current.retained_of_closure hret hk hd) hcheck hrun
      refine ⟨⟨k, _, _, u, ?_, by rw [h.result, closures_prunedBy, hk]; rfl, ?_, hu, hrun'⟩, he⟩
      · rw [Value.shrink, Value.shrinkAll_eq]
      · simp [hkept, hparams]

theorem kept_entrypoint {α : Type} (hd : d ∈ p.entrypoints) (items : List α) :
    usage.removable.kept d items = items := by
  refine kept_of_none (Option.eq_none_iff_forall_ne_some.mpr fun flags hflags => ?_) items
  obtain ⟨hmarked, hsome⟩ := getElem?_removable.mp hflags
  have hall := h.accounts.entrypoint d flags hmarked (by simpa [isEntrypoint] using hd)
  simp [hall] at hsome

theorem pureTops (hpure : p.PureTops) : q.PureTops := by
  intro top htop
  rw [h.result, prunedBy, Array.mem_map] at htop
  obtain ⟨top, htop, rfl⟩ := htop
  have := hpure top htop
  cases htail : top.tail <;>
    simp_all [pruneTail, Tail.isPure, Tail.purity]

/-- A run that comes to an end does so in the pruned program, with as many steps. -/
theorem run (hpure : p.PureTops) {b : BlockId} (hb : .block b ∈ p.entrypoints) {args : List Word}
    {limit : Nat} {o : Outcome} (ho : o.termination ≠ .diverged)
    (hrun : p.run (.block b) args limit = .ok o) :
    q.run (.block b) args limit = .ok o := by
  rw [run_block, runNested_eq_ok_iff hpure ho] at hrun
  obtain ⟨e, w', ⟨calls, hrun⟩, rfl⟩ := hrun
  have hdef : p.defines (.block b) = true := by
    cases calls with
    | zero => exact hrun.elim
    | succ calls =>
      obtain ⟨block, hblock, -⟩ := hrun
      exact defines_block_iff.mpr ⟨block, hblock⟩
  have hwords : ∀ v ∈ args.map Value.word, v.Fits p := by simp [Value.Fits]
  have hshrink : (args.map Value.word).map (Value.shrink usage.removable) =
    args.map Value.word := by
    simp [Value.shrink]
  obtain ⟨hrun', -⟩ := (h.simulates calls).jump (h.current.retained_root hb hdef) hwords hrun
  rw [h.kept_entrypoint hb, hshrink] at hrun'
  rw [run_block, runNested_eq_ok_iff (h.pureTops hpure) ho]
  refine ⟨_, w', ⟨calls, hrun'⟩, ?_⟩
  cases e with
  | returned vs =>
    simp [Ending.outcome, Ending.map, ← Value.shrinkAll_eq, Value.observeAll_shrinkAll]
  | halted => rfl

end Prunes

namespace Pass

/-- Removing unused arguments always succeeds. Every definition that kept the structural rules still
does, whether it is retained or not, and runs of entrypoints that return or halt stay as they are,
within the same number of steps. -/
theorem unusedArgs_preserves (s : Workbench) (hcheck : s.program.check = .ok ())
    (hcurrent : s.program.Current) :
    ∃ s', unusedArgs s = .ok () s' ∧
      (∀ d, s.program.checkDefn d = .ok () → s'.program.checkDefn d = .ok ()) ∧
      (s.program.PureTops → ∀ b, .block b ∈ s.program.entrypoints → ∀ args limit o,
        s.program.run (.block b) args limit = .ok o → o.termination ≠ .diverged →
          s'.program.run (.block b) args limit = .ok o) := by
  obtain ⟨usage, husage, haccounts⟩ := usage_spec hcurrent
  obtain ⟨s', hpass, hs'⟩ := unusedArgs_ok husage (haccounts.defines_of_mem_unused hcurrent)
  have hprunes : Prunes s.program usage s'.program := ⟨hcurrent, hcheck, haccounts, hs'⟩
  refine ⟨s', hpass, fun d hd => ?_, fun hpure b hb args limit o hrun ho => ?_⟩
  · rw [hs']
    exact checkDefn_prunedBy hd
  · exact hprunes.run hpure hb ho hrun

end Pass

/-- A loop that prints its counter, and hands on an argument that nothing reads. -/
def Program.idleLoop : Program :=
  { temps := ⟨.replicate 5 none⟩
    blocks := #[
      { params := [⟨1⟩]
        code := .jump ⟨⟨1⟩, [.temp ⟨1⟩, .word 7]⟩ },
      { params := [⟨2⟩, ⟨3⟩]
        code := .bind [] (.prim .print [.temp ⟨2⟩]) (.bind [⟨4⟩] (.prim .eq [.temp ⟨2⟩, .word 0])
          (.branch (.temp ⟨4⟩) ⟨⟨2⟩, []⟩ ⟨⟨1⟩, [.word 0, .temp ⟨3⟩]⟩)) },
      { params := []
        code := .done (.ret [.word 1]) }]
    entrypoints := [.block ⟨0⟩] : Program }.setComponents
    [⟨[.block ⟨2⟩], false, []⟩, ⟨[.block ⟨1⟩], true, [0]⟩, ⟨[.block ⟨0⟩], false, [1]⟩]

theorem Pass.unusedArgs_preserves_idleLoop :
    Program.idleLoop.check = .ok () ∧ Program.idleLoop.Current ∧
      ∃ s', unusedArgs { program := .idleLoop } = .ok () s' ∧
        s'.program.run (.block ⟨0⟩) [3] 9 = .ok ⟨[.word 3, .word 0], .returned [.word 1]⟩ := by
  have hcheck : idleLoop.check = .ok () := by decide +kernel
  have hcurrent : idleLoop.Current :=
    ⟨idleLoop.components.toList, by decide +kernel, by decide +kernel⟩
  have hpure : idleLoop.PureTops := by
    simp [PureTops, idleLoop, setComponents, mapNotes]
  obtain ⟨s', hpass, -, hruns⟩ := unusedArgs_preserves { program := .idleLoop } hcheck hcurrent
  exact ⟨hcheck, hcurrent, s', hpass,
    hruns hpure ⟨0⟩ (by decide +kernel) [3] 9 _ (by decide +kernel) (by decide)⟩

end MonadicIR
