import MonadicIR.Proofs.Handoffs
import MonadicIR.Proofs.Refinement

namespace MonadicIR

open Program List

/-- The position of an earlier argument that is the same variable. -/
def Atom.earlier? (kept : List Atom) (a : Atom) : Option Nat :=
  match a with
  | .temp _ => kept.findIdx? (· == a)
  | _ => none

theorem Atom.temp?_eq_some_iff {a : Atom} {t : Temp} : a.temp? = some t ↔ a = .temp t := by
  cases a <;> simp [temp?]

theorem Atom.getElem?_of_earlier? {kept : List Atom} {a : Atom} {j : Nat}
    (h : a.earlier? kept = some j) : ∃ t, a = .temp t ∧ kept[j]? = some a := by
  cases a with
  | temp t =>
    obtain ⟨hj, heq, -⟩ := List.findIdx?_eq_some_iff_getElem.mp h
    exact ⟨t, rfl, List.getElem?_eq_some_iff.mpr ⟨hj, eq_of_beq heq⟩⟩
  | word | flag | top | external => cases h

theorem Atom.notMem_of_earlier? {kept : List Atom} {a : Atom} (h : a.earlier? kept = none) :
    ∀ t, .temp t = a → .temp t ∉ kept := by
  rintro t rfl hmem
  have := findIdx?_eq_none_iff.mp h _ hmem
  simp at this

/-- For each further argument that repeats an earlier variable, the position of that one. -/
def repeatsAfter (kept : List Atom) : List Atom → List (Option Nat)
  | [] => []
  | a :: as => a.earlier? kept :: repeatsAfter (kept ++ [a]) as

theorem repeatsOf_eq (args : List Atom) : repeatsOf args = repeatsAfter [] args := by
  have hgo (kept as : List Atom) : as.mapIdx (fun i a => a.earlier? (kept ++ as.take i)) =
      repeatsAfter kept as := by
    induction as generalizing kept with
    | nil => rfl
    | cons a as ih =>
      rw [mapIdx_cons, repeatsAfter, ← ih]
      simp
  exact hgo [] args

theorem length_repeatsAfter (kept as : List Atom) : (repeatsAfter kept as).length = as.length := by
  induction as generalizing kept with
  | nil => rfl
  | cons a as ih => simp [repeatsAfter, ih]

/-- Values of which some are known to be the same as earlier ones. -/
inductive Value.Repeats : List Value → List Value → List (Option Nat) → Prop where
  | nil {kept} : Repeats kept [] []
  | again {kept v vs j repeats} (hv : kept[j]? = some v) (h : Repeats (kept ++ [v]) vs repeats) :
      Repeats kept (v :: vs) (some j :: repeats)
  | first {kept v vs repeats} (h : Repeats (kept ++ [v]) vs repeats) :
      Repeats kept (v :: vs) (none :: repeats)

theorem nodup_withoutRepeats (kept as : List Atom) :
    ((withoutRepeats as (repeatsAfter kept as)).filterMap Atom.temp?).Nodup ∧
      ∀ t, .temp t ∈ withoutRepeats as (repeatsAfter kept as) → .temp t ∉ kept := by
  induction as generalizing kept with
  | nil => simp [withoutRepeats]
  | cons a as ih =>
    obtain ⟨hnodup, hnew⟩ := ih (kept ++ [a])
    have hlater : ∀ t, .temp t ∈ withoutRepeats as (repeatsAfter (kept ++ [a]) as) →
        .temp t ∉ kept ∧ .temp t ≠ a := by
      intro t ht
      simpa using hnew t ht
    cases hr : a.earlier? kept with
    | some j =>
      simp only [repeatsAfter, hr, withoutRepeats]
      exact ⟨hnodup, fun t ht => (hlater t ht).1⟩
    | none =>
      simp only [repeatsAfter, hr, withoutRepeats, mem_cons]
      have hfirst := Atom.notMem_of_earlier? hr
      refine ⟨?_, ?_⟩
      · cases ha : a.temp? with
        | none => simpa [ha] using hnodup
        | some t =>
          obtain rfl := Atom.temp?_eq_some_iff.mp ha
          rw [filterMap_cons_some ha, nodup_cons]
          refine ⟨fun ht => ?_, hnodup⟩
          obtain ⟨b, hb, hbt⟩ := mem_filterMap.mp ht
          obtain rfl := Atom.temp?_eq_some_iff.mp hbt
          exact (hlater t hb).2 rfl
      · rintro t (rfl | ht)
        · exact hfirst t rfl
        · exact (hlater t ht).1

theorem Env.Sub.map_lookup {env env' : Env} (h : env.Sub env') {xs : List Temp} {vs : List Value}
    (hxs : xs.map env.lookup = vs.map some) : xs.map env'.lookup = vs.map some := by
  have hvalues : Atom.HasAll (fun _ _ => False) env (xs.map .temp) vs := Atom.hasAll_temps.mpr hxs
  exact Atom.hasAll_temps.mp (hvalues.imp fun _ _ => Atom.Has.sub h)

theorem map_lookup_append {env : Env} {xs : List Temp} {vs : List Value} {x : Temp} {v : Value}
    (hxs : xs.map env.lookup = vs.map some) (hx : env.lookup x = some v) :
    (xs ++ [x]).map env.lookup = (vs ++ [v]).map some := by
  rw [map_append, map_append, hxs, map_singleton, map_singleton, hx]

theorem Env.bind_new {env : Env} {n : Nat} (hn : 0 < n) (h : env.Below n) (v : Value) :
    (env.bind [⟨n⟩] [v]).lookup ⟨n⟩ = some v ∧ env.Sub (env.bind [⟨n⟩] [v]) ∧
      (env.bind [⟨n⟩] [v]).Below (n + 1) := by
  have hnamed : Temp.isWildcard ⟨n⟩ = false := by simp [Temp.isWildcard]; omega
  have hnew : ∀ x ∈ named [(⟨n⟩ : Temp)], x.index = n := by simp [mem_named]
  refine ⟨?_, (Env.Sub.refl env).bind_right h (fun x hx => (hnew x hx).ge) [v],
    (h.mono (Nat.le_succ n)).bind (fun x hx => Nat.lt_succ_of_le (hnew x hx).le) [v]⟩
  rw [Env.bind_cons]
  exact Env.lookup_put.trans (if_pos ⟨rfl, hnamed⟩)

namespace Run

variable {limit n : Nat} {tops tops' : TopId → Run (List Value)} {env : Env}

def Read (env : Env) (kept : List Atom) (values : List Value) : Prop :=
  List.Forall₂ (fun a v => ∀ t, a = .temp t → env.lookup t = some v) kept values

theorem Read.getElem? {kept : List Atom} {values : List Value} (h : Read env kept values) {j : Nat}
    {a : Atom} (ha : kept[j]? = some a) :
    ∃ v, values[j]? = some v ∧ ∀ t, a = .temp t → env.lookup t = some v := by
  induction h generalizing j with
  | nil => simp at ha
  | @cons b v _ _ hb _ ih =>
    cases j with
    | zero =>
      obtain rfl := Option.some.inj ha
      exact ⟨v, rfl, hb⟩
    | succ j => exact ih ha

theorem atom_read (htops : TopsImprove limit tops tops') (a : Atom) :
    Refines limit n n (fun v v' => v = v' ∧ ∀ t, a = .temp t → env.lookup t = some v)
      (atom tops env a) (atom tops' env a) := by
  cases a with
  | temp t =>
    simp only [atom]
    split
    case h_1 v hv => exact .pure ⟨rfl, fun _ ht => Atom.temp.inj ht ▸ hv⟩
    case h_2 => exact .fail
  | word | flag | top | external =>
    exact (atom_improves htops (.refl env _) n).imp fun v v' hv => ⟨hv, by simp⟩

theorem atoms_withoutRepeats (htops : TopsImprove limit tops tops') {kept : List Atom}
    {values : List Value} (hkept : Read env kept values) (as : List Atom) :
    Refines limit n n (fun vs vs' => Value.Repeats values vs (repeatsAfter kept as) ∧
        vs' = withoutRepeats vs (repeatsAfter kept as))
      (atoms tops env as) (atoms tops' env (withoutRepeats as (repeatsAfter kept as))) := by
  induction as generalizing kept values with
  | nil => exact .pure ⟨.nil, rfl⟩
  | cons a as ih =>
    cases hr : a.earlier? kept with
    | some j =>
      simp only [repeatsAfter, hr, withoutRepeats]
      obtain ⟨t, rfl, hj⟩ := Atom.getElem?_of_earlier? hr
      obtain ⟨v, hv, ht⟩ := hkept.getElem? hj
      have ht := ht t rfl
      rw [atoms, atom_eq_pure tops (a := .temp t) ht, pure_bind, ← bind_pure (atoms tops' env _)]
      have hread : Read env (kept ++ [.temp t]) (values ++ [v]) :=
        rel_append hkept (.cons (fun _ h => Atom.temp.inj h ▸ ht) .nil)
      exact .bind (ih hread) fun vs vs' h => .pure ⟨.again hv h.1, h.2⟩
    | none =>
      simp only [repeatsAfter, hr, withoutRepeats]
      unfold atoms
      refine .bind (atom_read htops a) fun v v' hv => ?_
      obtain ⟨rfl, hv⟩ := hv
      have hread : Read env (kept ++ [a]) (values ++ [v]) := rel_append hkept (.cons hv .nil)
      exact .bind (ih hread) fun vs vs' h => .pure ⟨.first h.1, h.2 ▸ rfl⟩

end Run

namespace Edit

theorem shareParams_ok {kept params own values : List Temp} {repeats : List (Option Nat)}
    {p p' : Program} (hlen : params.length = repeats.length) (hpos : 0 < p.temps.size)
    (h : shareParams kept params repeats p = .ok (own, values) p') :
    ∃ m, p' = { p with temps := m } ∧ p.temps.size ≤ m.size ∧ values.length = params.length ∧
      (∀ {α : Type} (xs : List α), xs.length = params.length →
        (withoutRepeats xs repeats).length = own.length) ∧
      ∀ ⦃env : Env⦄ ⦃before vs : List Value⦄, env.Below p.temps.size →
        kept.map env.lookup = before.map some → Value.Repeats before vs repeats →
          values.map (env.bind own (withoutRepeats vs repeats)).lookup = vs.map some ∧
            (env.bind own (withoutRepeats vs repeats)).Below m.size ∧
            env.Sub (env.bind own (withoutRepeats vs repeats)) := by
  induction params generalizing kept repeats own values p with
  | nil =>
    obtain rfl := length_eq_zero_iff.mp hlen.symm
    simp only [shareParams, pure_ok_iff, Prod.mk.injEq] at h
    obtain ⟨⟨rfl, rfl⟩, rfl⟩ := h
    refine ⟨_, rfl, le_rfl, rfl, fun xs hxs => ?_, fun env before vs hbelow _ hvs => ?_⟩
    · simp [length_eq_zero_iff.mp hxs, withoutRepeats]
    · cases hvs
      exact ⟨rfl, hbelow, .refl env⟩
  | cons param params ih =>
    obtain _ | ⟨_ | j, repeats⟩ := repeats
    · cases hlen
    · simp only [shareParams, bind_ok_iff, pure_ok_iff] at h
      obtain ⟨u, _, hu, ⟨own, values⟩, _, hrest, h, rfl⟩ := h
      obtain ⟨rfl, rfl⟩ := Prod.mk.inj h
      obtain ⟨rfl, m1, rfl, hm1⟩ := freshParam_ok hu
      obtain ⟨m, rfl, hm, hvalues, hown, hruns⟩ := ih (Nat.succ.inj hlen) (by simp [hm1]) hrest
      simp only at hm hruns
      refine ⟨m, rfl, by omega, by simp [hvalues], fun xs hxs => ?_,
        fun env before vs hbelow hkept hvs => ?_⟩
      · cases xs with
        | nil => cases hxs
        | cons x xs => simp [withoutRepeats, hown xs (Nat.succ.inj hxs)]
      · cases hvs with
        | @first _ v vs _ hvs =>
          obtain ⟨hput, hsub, hbelow'⟩ := Env.bind_new hpos hbelow v
          have hkept' := map_lookup_append (hsub.map_lookup hkept) hput
          obtain ⟨hmap, hbelow'', hsub'⟩ := hruns (hm1 ▸ hbelow') hkept' hvs
          simp only [withoutRepeats, map_cons]
          refine ⟨?_, hbelow'', fun _ _ hx => hsub' (hsub hx)⟩
          exact congrArg₂ List.cons (hsub' hput) hmap
    · simp only [shareParams, bind_ok_iff, pure_ok_iff] at h
      obtain ⟨⟨own, values⟩, _, hrest, h, rfl⟩ := h
      obtain ⟨rfl, rfl⟩ := Prod.mk.inj h
      obtain ⟨m, rfl, hm, hvalues, hown, hruns⟩ := ih (Nat.succ.inj hlen) hpos hrest
      refine ⟨m, rfl, hm, by simp [hvalues], fun xs hxs => ?_,
        fun env before vs hbelow hkept hvs => ?_⟩
      · cases xs with
        | nil => cases hxs
        | cons x xs => exact hown xs (Nat.succ.inj hxs)
      · cases hvs with
        | @again _ v vs _ _ hv hvs =>
          obtain ⟨t, ht, htv⟩ : ∃ t, kept[j]? = some t ∧ env.lookup t = some v := by
            have := congrArg (fun l => l[j]?) hkept
            simpa [hv] using this
          have hkept' := map_lookup_append hkept htv
          simp only [ht, Option.getD_some] at hruns
          obtain ⟨hmap, hbelow', hsub⟩ := hruns hbelow hkept' hvs
          simp only [withoutRepeats, ht, Option.getD_some, map_cons]
          exact ⟨by rw [hsub htv, hmap], hbelow', hsub⟩

end Edit

theorem Program.Keeps.extends {p q : Program} (h : p.Keeps q) : p.Extends q where
  block b x hx := by
    obtain ⟨derived, hq⟩ := h.block (block_eq_ok_iff.mp hx)
    exact ⟨_, block_eq_ok_iff.mpr hq, rfl, rfl⟩
  closure k x hx := by
    obtain ⟨derived, hq⟩ := h.closure (closure_eq_ok_iff.mp hx)
    exact ⟨_, closure_eq_ok_iff.mpr hq, rfl, rfl, rfl⟩
  top t x hx := ⟨x, by rw [← hx, Program.top, Program.top, h.tops], rfl, rfl⟩

namespace Edit

variable (p : Program)

theorem exists_fresh : ∃ u p', fresh p = .ok u p' := ⟨_, _, update_eq_ok_iff.mpr rfl⟩

theorem exists_freshParam (t : Temp) : ∃ u p', freshParam t p = .ok u p' := by
  unfold freshParam
  split
  · exact exists_fresh p
  · exact ⟨_, _, update_eq_ok_iff.mpr rfl⟩

theorem exists_freshParams (ts : List Temp) : ∃ us p', freshParams ts p = .ok us p' := by
  induction ts generalizing p with
  | nil => exact ⟨[], p, rfl⟩
  | cons t ts ih =>
    obtain ⟨u, p1, hu⟩ := exists_freshParam p t
    obtain ⟨us, p2, hus⟩ := ih p1
    refine ⟨u :: us, p2, bind_ok_iff.mpr ⟨u, p1, hu, ?_⟩⟩
    exact bind_ok_iff.mpr ⟨us, p2, hus, rfl⟩

theorem exists_freshN (n : Nat) : ∃ us p', freshN n p = .ok us p' :=
    ⟨_, _, update_eq_ok_iff.mpr rfl⟩

theorem exists_copyFresh (code : Code) (s : Subst) : ∃ copy p', copyFresh code s p = .ok copy p' :=
  ⟨_, _, update_eq_ok_iff.mpr rfl⟩

end Edit

theorem Edit.addDerivedBlock_ok {source d : BlockId} {block : Block} {p p' : Program}
    (h : Edit.addDerivedBlock source block p = .ok d p')
    (hsource : source.index < p.blocks.size) :
    d = ⟨p.blocks.size⟩ ∧ p'.block d = .ok block ∧ p.Keeps p' := by
  simp only [Edit.addDerivedBlock, bind_ok_iff, Edit.addBlock, Edit.update_eq_ok_iff,
    Edit.modifyBlock_eq_ok_iff, pure_ok_iff, exists_unit] at h
  obtain ⟨_, p1, hp1, p2, ⟨old, hold, rfl⟩, rfl, rfl⟩ := h
  obtain ⟨rfl, rfl⟩ := Prod.mk.inj hp1
  have hne : (⟨p.blocks.size⟩ : BlockId) ≠ source := by
    rintro rfl
    exact Nat.lt_irrefl _ hsource
  refine ⟨rfl, ?_, (Keeps.addBlock p block).trans (.setBlock hold _)⟩
  rw [block_eq_ok_iff, getElem?_setBlock hold, if_neg hne]
  simp

/-- Given the arguments that are not repetitions, the copy does what the block does given all. -/
structure Block.Shares (block : Block) (repeats : List (Option Nat)) (copy : Block) : Prop where
  length : ∀ {α : Type} (xs : List α), xs.length = block.params.length →
    (withoutRepeats xs repeats).length = copy.params.length
  runs : ∀ ⦃vs⦄, Value.Repeats [] vs repeats → vs.length = block.params.length →
    Code.StandsFor (Env.bind [] block.params vs)
      (Env.bind [] copy.params (withoutRepeats vs repeats))
      block.code copy.code

theorem Edit.addSharingBlock_ok {b d : BlockId} {block : Block} {repeats : List (Option Nat)}
    {depth : Nat} {p p' : Program} (hpos : 0 < p.temps.size) (hb : b.index < p.blocks.size)
    (hlen : block.params.length = repeats.length)
    (h : Edit.addSharingBlock b block repeats depth p = .ok d p') :
    d = ⟨p.blocks.size⟩ ∧ p.Keeps p' ∧ ∃ copy, p'.block d = .ok copy ∧
      block.Shares repeats copy := by
  simp only [addSharingBlock, bind_ok_iff] at h
  obtain ⟨⟨own, values⟩, _, hshare, ⟨code, subst⟩, _, hcopy, hadd⟩ := h
  obtain ⟨m, rfl, hm, hvalues, hown, hruns⟩ := shareParams_ok hlen hpos hshare
  obtain ⟨rfl, rfl⟩ := copyFresh_ok hcopy
  obtain ⟨rfl, hd, hkeeps⟩ := addDerivedBlock_ok hadd hb
  refine ⟨rfl, ((Keeps.withTemps p m).trans (.withTemps _ _)).trans hkeeps, _, hd, hown,
    fun vs hvs hlen => ?_⟩
  have hnil : Env.Below [] p.temps.size := by simp [Env.Below]
  obtain ⟨hmap, hbelow, -⟩ := hruns hnil rfl hvs
  have hhas : Atom.HasAll (fun _ _ => False) (Env.bind [] own (withoutRepeats vs repeats))
      (values.map .temp) vs := Atom.hasAll_temps.mpr hmap
  have hcarries := (Subst.Carries.nil (s := {})).extendAll (by simpa using hvalues.symm) hhas
  exact .copyFresh hcarries (lt_of_lt_of_le hpos hm) hbelow block.code

namespace Pass

theorem callSharing_new {o : Options} {c c' : Call} {w w' : Workbench}
    (hpos : 0 < w.program.temps.size) (h : callSharing o c w = .ok (some c') w')
    (hnew : w.program.blocks[c'.target.index]? = none) :
    c'.args = withoutRepeats c.args (repeatsOf c.args) ∧ w.program.Keeps w'.program ∧
      ∃ block copy, w.program.block c.target = .ok block ∧ block.params.length = c.args.length ∧
        w'.program.block c'.target = .ok copy ∧ block.Shares (repeatsOf c.args) copy := by
  simp only [callSharing, pure_bind] at h
  split at h
  · simp [pure_ok_iff] at h
  simp only [bind_ok_iff, look_eq_ok_iff] at h
  obtain ⟨block, w1, ⟨hblock, hw1⟩, h⟩ := h
  rw [hw1] at h
  split at h
  · simp [bind_ok_iff] at h
  case isFalse hlen =>
  split at h
  · simp [pure_ok_iff] at h
  simp only [bind_ok_iff, get_ok_iff] at h
  obtain ⟨w2, w3, ⟨hw2, hw3⟩, h⟩ := h
  rw [hw2, hw3] at h
  have hparams := Decidable.not_not.mp hlen
  have htarget : c.target.index < w.program.blocks.size :=
    (Array.getElem?_eq_some_iff.mp (block_eq_ok_iff.mp hblock)).1
  cases hfound : w.program.derivedBlock? block (·.sharesLike (repeatsOf c.args)) with
  | some d =>
    simp only [hfound, bind_ok_iff, pure_ok_iff, report_eq_ok_iff, Option.some.injEq] at h
    obtain ⟨_, _, rfl, rfl, rfl⟩ := h
    obtain ⟨-, copy, hcopy, -⟩ := derivedBlock?_eq_some hfound
    simp [hnew] at hcopy
  | none =>
    simp only [hfound, bind_ok_iff, edit_eq_ok_iff, pure_ok_iff, report_eq_ok_iff,
      Option.some.injEq] at h
    obtain ⟨d, _, ⟨p', hadd, rfl⟩, _, _, rfl, rfl, rfl⟩ := h
    have hlen : block.params.length = (repeatsOf c.args).length := by
      rw [repeatsOf_eq, length_repeatsAfter, hparams]
    obtain ⟨-, hkeeps, copy, hcopy, hshares⟩ := Edit.addSharingBlock_ok hpos htarget hlen hadd
    exact ⟨rfl, hkeeps, block, copy, hblock, hparams, hcopy, hshares⟩

end Pass

namespace Run

variable {p q : Program} {limit : Nat} {tops tops' : TopId → Run (List Value)} {env : Env}

theorem jump_withoutRepeats (htops : TopsImprove limit tops tops') {c c' : Call}
    (hargs : c'.args = withoutRepeats c.args (repeatsOf c.args)) {block copy : Block}
    (hblock : p.block c.target = .ok block) (hcopy : q.block c'.target = .ok copy)
    (hshares : block.Shares (repeatsOf c.args) copy) (n : Nat) :
    Refines limit n n (fun x y => Code.StandsFor x.1 y.1 x.2 y.2) (jump p tops env c)
      (jump q tops' env c') := by
  unfold jump
  refine .bind (Q := fun x y => x = block ∧ y = copy) (.ofFault fun x hx => ?_) fun x y hxy => ?_
  · obtain rfl := Except.ok.inj (hblock.symm.trans hx)
    exact ⟨copy, hcopy, rfl, rfl⟩
  obtain ⟨rfl, rfl⟩ := hxy
  rw [hargs, repeatsOf_eq]
  refine .bind (atoms_withoutRepeats htops .nil c.args) fun vs vs' hvs => ?_
  obtain ⟨hrepeats, rfl⟩ := hvs
  rw [← repeatsOf_eq] at hrepeats ⊢
  by_cases hlen : x.params.length = vs.length
  · have hlen' := hshares.length vs hlen.symm
    simp only [enter, if_pos hlen, if_pos hlen'.symm, pure_bind]
    exact .pure (hshares.runs hrepeats hlen.symm)
  · simp only [enter, if_neg hlen]
    exact .fail

theorem runCode_jump {eval eval' : Env → Tail → Run (List Value)} {env' : Env} (hext : p.Extends q)
    (htops : TopsImprove limit tops tops') (heval : TailsImprove limit eval eval') {c c' : Call}
    (hjump : ∀ n, Refines limit n n (fun x y => Code.StandsFor x.1 y.1 x.2 y.2) (jump p tops env c)
      (jump q tops' env' c')) : Improves limit (runCode p limit eval tops (limit + 1) env (.jump c))
        (runCode q limit eval' tops' (limit + 1) env' (.jump c')) := by
  intro n
  unfold runCode Code.jump tailStep
  refine .bind .tick fun _ _ _ => ?_
  simp only [bind_assoc, pure_bind]
  refine .bind (hjump (n + 1)) fun x y hxy => ?_
  exact (runCode_refines hext htops heval (by omega) (by omega) hxy).weaken (Nat.le_succ n)

end Run

namespace Pass

/-- A new copy is called with distinct variables, one argument for each of its parameters, and the
call does what the one that it replaces did: unless that one fails, it ends alike and leaves the
same machine. -/
theorem callSharing_faithful {o : Options} {c c' : Call} {w w' : Workbench}
    (htemps : 0 < w.program.temps.size) (h : callSharing o c w = .ok (some c') w')
    (hnew : w.program.blocks[c'.target.index]? = none) :
    (c'.args.filterMap Atom.temp?).Nodup ∧
      (∃ copy, w'.program.block c'.target = .ok copy ∧ c'.args.length = copy.params.length) ∧
      ∀ (limit depth idle : Nat) (env : Env) (s : Machine),
        (∀ e s', Run.evalCode w.program limit depth idle env (.jump c) s ≠ .error (.failed e) s') →
          Run.evalCode w'.program limit depth idle env (.jump c') s =
            Run.evalCode w.program limit depth idle env (.jump c) s := by
  obtain ⟨hargs, hkeeps, block, copy, hblock, hparams, hcopy, hshares⟩ :=
    callSharing_new htemps h hnew
  refine ⟨?_, ⟨copy, hcopy, ?_⟩, fun limit depth idle env s hs => ?_⟩
  · rw [hargs, repeatsOf_eq]
    exact (nodup_withoutRepeats [] c.args).1
  · rw [hargs]
    exact hshares.length c.args hparams.symm
  · have hext := hkeeps.extends
    have htops : Run.TopsImprove limit _ _ :=
      Run.topValues_evalTail_improve hext (Nat.le_refl depth) (idle - 1)
    have heval : Run.TailsImprove limit _ _ := Run.evalTail_improves hext (Nat.le_refl depth) idle
    exact (Run.runCode_jump hext htops heval
      (Run.jump_withoutRepeats htops hargs hblock hcopy hshares)).evalCode_eq hs

/-- A block that prints the sum of its first two arguments and returns the third. -/
def summing : Workbench where
  program :=
    { temps := ⟨.replicate 6 none⟩
      blocks := #[
        { params := [⟨1⟩, ⟨2⟩, ⟨3⟩]
          code := .bind [⟨4⟩] (.prim .add [.temp ⟨1⟩, .temp ⟨2⟩])
            (.bind [] (.prim .print [.temp ⟨4⟩]) (.done (.ret [.temp ⟨3⟩]))) }] }

theorem callSharing_faithful_summing :
    ∃ w', callSharing {} ⟨⟨0⟩, [.temp ⟨5⟩, .temp ⟨5⟩, .word 3]⟩ summing =
        .ok (some ⟨⟨1⟩, [.temp ⟨5⟩, .word 3]⟩) w' ∧
      (∃ copy, w'.program.block ⟨1⟩ = .ok copy ∧ copy.params.length = 2) ∧
      ∃ vs s, Value.observeAll vs = [.word 3] ∧ s.output = #[.word 40] ∧
        Run.evalCode summing.program 10 2 1 [(⟨5⟩, .word 20)]
          (.jump ⟨⟨0⟩, [.temp ⟨5⟩, .temp ⟨5⟩, .word 3]⟩) {} = .ok vs s ∧
        Run.evalCode w'.program 10 2 1 [(⟨5⟩, .word 20)]
          (.jump ⟨⟨1⟩, [.temp ⟨5⟩, .word 3]⟩) {} = .ok vs s := by
  obtain ⟨c', w', hcall, hc'⟩ := exists_ok
    (r := callSharing {} ⟨⟨0⟩, [.temp ⟨5⟩, .temp ⟨5⟩, .word 3]⟩ summing)
    (fun c' _ => c' == some ⟨⟨1⟩, [.temp ⟨5⟩, .word 3]⟩) (by cbv)
  obtain rfl := eq_of_beq hc'
  obtain ⟨-, ⟨copy, hcopy, hlen⟩, hruns⟩ := callSharing_faithful (by decide) hcall (by decide)
  obtain ⟨vs, s, hrun, htest⟩ := exists_ok
    (r := Run.evalCode summing.program 10 2 1 [(⟨5⟩, .word 20)]
      (.jump ⟨⟨0⟩, [.temp ⟨5⟩, .temp ⟨5⟩, .word 3]⟩) {})
    (fun vs s => Value.observeAll vs == [.word 3] && s.output == #[.word 40]) (by decide +kernel)
  simp only [Bool.and_eq_true, beq_iff_eq] at htest
  refine ⟨w', hcall, ⟨copy, hcopy, hlen.symm⟩, vs, s, htest.1, htest.2, hrun, ?_⟩
  rw [hruns 10 2 1 _ _ (by simp [hrun]), hrun]

end Pass

end MonadicIR
