import MonadicIR.Proofs.FunctionGraphs
import MonadicIR.Proofs.Merging
import MonadicIR.Proofs.Nameless
import MonadicIR.Proofs.Summaries

namespace MonadicIR

open Program Option

section Gathering

variable {α κ : Type} [DecidableEq κ] (key : α → κ)

def firstWith (k : κ) (items : List α) : Option α := items.find? fun a => decide (key a = k)

variable {key}

theorem firstWith_eq_some {k : κ} {items : List α} {c : α} (h : firstWith key k items = some c) :
    c ∈ items ∧ key c = k :=
  ⟨List.mem_of_find?_eq_some h, by simpa using List.find?_some h⟩

theorem firstWith_skip {k : κ} {kept : List α} {a c : α} (h : firstWith key (key a) kept = some c)
    (as : List α) : firstWith key k (kept ++ a :: as) = firstWith key k (kept ++ as) := by
  simp only [firstWith, List.find?_append] at h ⊢
  by_cases hk : key a = k
  · rw [← hk, h, some_or, some_or]
  · rw [List.find?_cons_of_neg (by simpa using hk)]

theorem Groups.find_eq_firstWith {groups : Groups α} {summary : Word} {same : α → Bool} {k : κ}
    (h : ∀ g ∈ groups, g.1 = summary ∧ same g.2 = true ↔ key g.2 = k) :
    groups.find summary same = firstWith key k (groups.map Prod.snd) := by
  rw [find, firstWith, List.find?_map]
  congr 1
  refine List.find?_congr fun g hg => ?_
  rw [Bool.eq_iff_iff]
  simpa using h g hg

variable [DecidableEq α] (key) (stays : α → Bool)

/-- The notes that are written when each item joins the first kept one with its key. Items that stay
join none. -/
def gather : List α → List α → (α → Option α) → α → Option α
  | [], _, note => note
  | a :: as, kept, note =>
    match if stays a then none else firstWith key (key a) kept with
    | some c => gather as kept (Function.update note a (some c))
    | none => gather as (kept ++ [a]) (Function.update note a none)

variable {key stays}

theorem gather_of_notMem {as kept : List α} {note : α → Option α} {a : α} (ha : a ∉ as) :
    gather key stays as kept note a = note a := by
  induction as generalizing kept note with
  | nil => rfl
  | cons b as ih =>
    obtain ⟨hab, ha⟩ := not_or.mp (mt List.mem_cons.mpr ha)
    rw [gather]
    cases (if stays b then none else firstWith key (key b) kept) <;> dsimp only <;>
      rw [ih ha, Function.update_of_ne hab]

theorem gather_of_mem {as kept : List α} {note : α → Option α} (hnodup : as.Nodup)
    (hkept : ∀ c ∈ kept, c ∉ as) {a : α} (ha : a ∈ as) : gather key stays as kept note a =
      if stays a then none else (firstWith key (key a) (kept ++ as)).filter (· ≠ a) := by
  induction as generalizing kept note with
  | nil => cases ha
  | cons b as ih =>
    obtain ⟨hnew, hnodup⟩ := List.nodup_cons.mp hnodup
    have hkept' : ∀ c ∈ kept, c ∉ as := fun c hc h => hkept c hc (.tail _ h)
    rw [gather]
    cases hb : if stays b then none else firstWith key (key b) kept with
    | some c =>
      dsimp only
      obtain ⟨hstays, hc⟩ : stays b = false ∧ firstWith key (key b) kept = some c := by
        split at hb
        · cases hb
        · exact ⟨Bool.eq_false_iff.mpr ‹_›, hb⟩
      rw [firstWith_skip hc]
      obtain rfl | ha := List.mem_cons.mp ha
      · have hca : c ≠ a := fun h => hkept c (firstWith_eq_some hc).1 (by simp [h])
        rw [gather_of_notMem hnew, Function.update_self, hstays, firstWith, List.find?_append]
        rw [firstWith] at hc
        simp [hc, hca, Option.filter]
      · exact ih hnodup hkept' ha
    | none =>
      dsimp only
      have hsplit : kept ++ b :: as = (kept ++ [b]) ++ as := by simp
      rw [hsplit]
      obtain rfl | ha := List.mem_cons.mp ha
      · rw [gather_of_notMem hnew, Function.update_self]
        split at hb
        · rw [if_pos ‹_›]
        · rw [firstWith] at hb
          simp [firstWith, List.find?_append, hb, Option.filter]
      · refine ih hnodup (fun c hc => ?_) ha
        obtain hc | hc := List.mem_append.mp hc
        · exact hkept' c hc
        · rwa [List.mem_singleton.mp hc]

variable {as : List α} {note : α → Option α} {a b c : α}

theorem gather_of_stays (hnodup : as.Nodup) (ha : a ∈ as) (hstays : stays a = true) :
    gather key stays as [] note a = none := by
  rw [gather_of_mem hnodup (by simp) ha, if_pos hstays]

theorem gather_of_joined (hnodup : as.Nodup) (ha : a ∈ as)
    (h : gather key stays as [] note a = some c) : gather key stays as [] note c = none := by
  rw [gather_of_mem hnodup (by simp) ha] at h
  split at h
  · cases h
  · obtain ⟨hfirst, -⟩ := Option.filter_eq_some_iff.mp h
    obtain ⟨hc, hkey⟩ := firstWith_eq_some hfirst
    rw [gather_of_mem hnodup (by simp) hc, hkey, List.nil_append]
    simp_all [Option.filter]

theorem firstWith_eq_getD_gather (hnodup : as.Nodup) (ha : a ∈ as) (hstays : stays a = false) :
    firstWith key (key a) as = some ((gather key stays as [] note a).getD a) := by
  rw [gather_of_mem hnodup (by simp) ha, hstays]
  obtain ⟨c, hc⟩ : ∃ c, firstWith key (key a) as = some c :=
    Option.isSome_iff_exists.mp (List.find?_isSome.mpr ⟨a, ha, by simp⟩)
  by_cases hca : c = a <;> simp [hc, hca, Option.filter]

theorem getD_gather_eq_iff (hnodup : as.Nodup) (ha : a ∈ as) (hb : b ∈ as) (hsa : stays a = false)
    (hsb : stays b = false) : (gather key stays as [] note a).getD a =
      (gather key stays as [] note b).getD b ↔ key a = key b := by
  have hfirst : firstWith key (key a) as = some ((gather key stays as [] note a).getD a) :=
    firstWith_eq_getD_gather hnodup ha hsa
  have hfirst' : firstWith key (key b) as = some ((gather key stays as [] note b).getD b) :=
    firstWith_eq_getD_gather hnodup hb hsb
  constructor
  · intro h
    rw [← (firstWith_eq_some hfirst).2, h, (firstWith_eq_some hfirst').2]
  · intro h
    rw [h] at hfirst
    exact mem_unique hfirst hfirst'

theorem key_getD_gather (hnodup : as.Nodup) (ha : a ∈ as) :
    key ((gather key stays as [] note a).getD a) = key a := by
  cases hs : stays a with
  | true => rw [gather_of_stays hnodup ha hs, getD_none]
  | false => exact (firstWith_eq_some (firstWith_eq_getD_gather hnodup ha hs)).2

end Gathering

namespace Mergeable

variable {ι δ κ : Type} [DecidableEq ι] [DecidableEq κ] {M : Mergeable ι δ}

/-- Forms that are equal exactly for equivalent definitions. -/
structure Forms (M : Mergeable ι δ) (κ : Type) where
  form : δ → κ
  equiv_iff {x y} : M.equiv x y = true ↔ form x = form y
  summary_eq {x y} (h : form x = form y) : M.summary x = M.summary y

namespace Forms

def blocks : Mergeable.blocks.Forms (Nat × Code) where
  form := Block.nameless
  equiv_iff := Block.alphaEquiv_iff_nameless
  summary_eq h := Code.summary_of_alpha
    ((Bool.and_eq_true _ _).mp (Block.alphaEquiv_iff_nameless.mpr h)).2

def closures : Mergeable.closures.Forms (Nat × Nat × Tail) where
  form := Closure.nameless
  equiv_iff := Closure.alphaEquiv_iff_nameless
  summary_eq h := Tail.summary_of_alpha
    ((Bool.and_eq_true _ _).mp (Closure.alphaEquiv_iff_nameless.mpr h)).2

variable (F : M.Forms κ) {p : Program}

def formOf (p : Program) (a : ι) : Option κ := (M.find? p a).map F.form

/-- With summaries that belong to the kept definitions, the first one of the same form is joined. -/
theorem join?_eq_firstWith {q : Program} (hbare : q.bare = p.bare) {groups : Groups ι}
    (hgroups : ∀ g ∈ groups, ∃ x, M.find? p g.2 = some x ∧ g.1 = M.summary x) {a : ι} {x : δ}
    (hx : M.find? p a = some x) (r : Option ι) : M.join? q groups a (M.annotate r x) =
      if p.isEntrypoint (M.defn a) then none else
        firstWith (F.formOf p) (F.formOf p a) (groups.map Prod.snd) := by
  rw [join?, isEntrypoint_of_bare hbare]
  congr 1
  refine Groups.find_eq_firstWith fun g hg => ?_
  obtain ⟨y, hy, hword⟩ := hgroups g hg
  obtain ⟨r', hother⟩ := M.find?_of_bare hbare hy
  rw [hother, any_some, M.equiv_annotate, M.summary_annotate, hword, F.equiv_iff]
  simp only [formOf, hy, hx, map_some, Option.some.injEq]
  exact and_iff_right_of_imp F.summary_eq

theorem pass_gathers (as : List ι) (groups : Groups ι) (s : Workbench)
    (hbare : s.program.bare = p.bare) (has : ∀ a ∈ as, ∃ x, M.find? p a = some x)
    (hgroups : ∀ g ∈ groups, ∃ x, M.find? p g.2 = some x ∧ g.1 = M.summary x) :
    ∃ r s', M.pass as groups s = .ok r s' ∧ M.note s'.program =
      gather (F.formOf p) (fun a => p.isEntrypoint (M.defn a)) as (groups.map Prod.snd)
        (M.note s.program) := by
  induction as generalizing groups s with
  | nil => exact ⟨_, _, by rw [M.pass_nil]; rfl, rfl⟩
  | cons a as ih =>
    obtain ⟨⟨x, hx⟩, has⟩ := List.forall_mem_cons.mp has
    obtain ⟨r0, hy⟩ := M.find?_of_bare hbare hx
    have hjoin := F.join?_eq_firstWith hbare hgroups hx r0
    have hnext (r : Option ι) := (M.bare_set hy r).trans hbare
    cases hc : M.join? s.program groups a (M.annotate r0 x) with
    | some c =>
      obtain ⟨r, s', h, hnote⟩ := ih groups (M.joined s a c _) (hnext _) has hgroups
      refine ⟨true, s', ?_, ?_⟩
      · rw [pass_cons_of_join hy hc, bind_ok_iff]
        exact ⟨r, s', h, rfl⟩
      simp only [gather, ← hjoin, hc]
      rw [hnote, joined, note_set hy]
    | none =>
      obtain ⟨r, s', h, hnote⟩ := ih (groups ++ [(M.summary (M.annotate r0 x), a)])
        (M.kept s a _) (hnext _) has fun g hg => by
          obtain hg | hg := List.mem_append.mp hg
          · exact hgroups g hg
          · rw [List.mem_singleton.mp hg]
            exact ⟨x, hx, M.summary_annotate r0 x⟩
      refine ⟨r, s', (pass_cons_of_keep hy hc).trans h, ?_⟩
      simp only [gather, ← hjoin, hc]
      rw [hnote, kept, note_set hy, List.map_append]
      rfl

omit [DecidableEq κ] in
theorem same_iff {a b : ι} (hb : ∃ y, M.find? p b = some y) :
    M.Same p a b ↔ F.formOf p a = F.formOf p b := by
  obtain ⟨y, hb⟩ := hb
  simp [Same, formOf, hb, F.equiv_iff]

include F in
/-- The notes lead definitions to one place exactly when they were equivalent, and lead those that
stay to themselves. -/
theorem pass_groups {s : Workbench} {as : List ι} (hnodup : as.Nodup)
    (has : ∀ a ∈ as, ∃ x, M.find? s.program a = some x)
    (hroots : ∀ a, s.program.isEntrypoint (M.defn a) = true → a ∉ as → M.find? s.program a = none) :
    ∃ r s', M.pass as [] s = .ok r s' ∧ ∀ fuel,
      (∀ a ∈ as, ∀ b ∈ as, s.program.isEntrypoint (M.defn a) = false →
        s.program.isEntrypoint (M.defn b) = false →
          (follow (M.note s'.program) (fuel + 1) a = follow (M.note s'.program) (fuel + 1) b ↔
            M.Same s.program a b)) ∧
      (∀ a ∈ as, M.Same s.program (follow (M.note s'.program) (fuel + 1) a) a) ∧
      ∀ a, s.program.isEntrypoint (M.defn a) = true →
        follow (M.note s'.program) (fuel + 1) a = a := by
  obtain ⟨r, s', h, hnote⟩ := F.pass_gathers as [] s rfl has (by simp)
  refine ⟨r, s', h, fun fuel => ?_⟩
  have hlead {a : ι} (ha : a ∈ as) :
      follow (M.note s'.program) (fuel + 1) a = (M.note s'.program a).getD a := by
    refine follow_eq_getD (fun c hc => ?_) fuel
    rw [hnote] at hc ⊢
    exact gather_of_joined hnodup ha hc
  refine ⟨fun a ha b hb hsa hsb => ?_, fun a ha => ?_, fun a hentry => ?_⟩
  · rw [hlead ha, hlead hb, hnote, F.same_iff (has b hb)]
    exact getD_gather_eq_iff hnodup ha hb hsa hsb
  · rw [hlead ha, hnote, F.same_iff (has a ha)]
    exact key_getD_gather hnodup ha
  · refine follow_of_none ?_ _
    rw [hnote]
    by_cases ha : a ∈ as
    · exact gather_of_stays hnodup ha hentry
    · -- An entrypoint that is not retained is not there, and has no note.
      rw [gather_of_notMem ha, note, hroots a hentry ha, Option.bind_none]

end Forms

end Mergeable

namespace Program

variable {p : Program}

theorem Current.defines_of_mem (h : p.Current) {d : DefnId} (hd : d ∈ p.defns) :
    p.defines d = true := by
  unfold defns at hd
  split at hd
  · exact mem_allDefns.mp hd
  · obtain ⟨cs, hcs⟩ := h.callees hd
    exact defines_of_callees hcs

end Program

namespace Pass

/-- Merging finds exactly the groups of equivalent definitions. When the components are up to date,
both passes come to their end. Then two retained definitions that are no entrypoints have the same
replacement exactly when they were equivalent; what replaces a definition is equivalent to it; and
entrypoints are replaced by themselves. -/
theorem collapse_replaces_iff_same (s : Workbench) (hcurrent : s.program.Current) :
    (∃ r s', collapseBlocks s = .ok r s' ∧
      (∀ b c, .block b ∈ s.program.defns → .block c ∈ s.program.defns →
        s.program.isEntrypoint (.block b) = false → s.program.isEntrypoint (.block c) = false →
          (s'.program.blockReplacement b = s'.program.blockReplacement c ↔
            s.program.SameBlocks b c)) ∧
      (∀ b, .block b ∈ s.program.defns →
        s.program.SameBlocks (s'.program.blockReplacement b) b) ∧
      ∀ b, s.program.isEntrypoint (.block b) = true → s'.program.blockReplacement b = b) ∧
    ∃ r s', collapseClosures s = .ok r s' ∧
      (∀ k l, .closure k ∈ s.program.defns → .closure l ∈ s.program.defns →
        s.program.isEntrypoint (.closure k) = false → s.program.isEntrypoint (.closure l) = false →
          (s'.program.closureReplacement k = s'.program.closureReplacement l ↔
            s.program.SameClosures k l)) ∧
      (∀ k, .closure k ∈ s.program.defns →
        s.program.SameClosures (s'.program.closureReplacement k) k) ∧
      ∀ k, s.program.isEntrypoint (.closure k) = true → s'.program.closureReplacement k = k := by
  have hdefined {d : DefnId} (hd : d ∈ s.program.defns) : s.program.defines d = true :=
    hcurrent.defines_of_mem hd
  have hroot {d : DefnId} (hd : s.program.isEntrypoint d = true)
    (hdef : s.program.defines d = true) :
      d ∈ s.program.defns :=
    hcurrent.mem_defns_of_root (List.contains_iff_mem.mp hd) hdef
  constructor
  · obtain ⟨r, s', h, hgroups⟩ := Mergeable.Forms.blocks.pass_groups
      (nodup_retainedBlocks hcurrent.nodup_defns)
      (fun b hb => defines_block_iff.mp (hdefined (mem_retainedBlocks.mp hb)))
      (fun b hentry hb => eq_none_iff_forall_ne_some.mpr fun x hx =>
        hb (mem_retainedBlocks.mpr (hroot hentry (defines_block_iff.mpr ⟨x, hx⟩))))
    obtain ⟨hsame, hrep, hentry⟩ := hgroups s'.program.blocks.size
    refine ⟨r, _, collapseBlocks_eq_ok_iff.mpr ⟨s', h, rfl⟩, ?_⟩
    simp only [blockReplacement, blockReplacementFrom_eq_follow,
      ← mem_retainedBlocks]
    exact ⟨fun b c hb hc => hsame b hb c hc, hrep, hentry⟩
  · obtain ⟨r, s', h, hgroups⟩ := Mergeable.Forms.closures.pass_groups
      (nodup_retainedClosures hcurrent.nodup_defns)
      (fun k hk => defines_closure_iff.mp (hdefined (mem_retainedClosures.mp hk)))
      (fun k hentry hk => eq_none_iff_forall_ne_some.mpr fun x hx =>
        hk (mem_retainedClosures.mpr (hroot hentry (defines_closure_iff.mpr ⟨x, hx⟩))))
    obtain ⟨hsame, hrep, hentry⟩ := hgroups s'.program.closures.size
    refine ⟨r, _, collapseClosures_eq_ok_iff.mpr ⟨s', h, rfl⟩, ?_⟩
    simp only [closureReplacement, closureReplacementFrom_eq_follow,
      ← mem_retainedClosures]
    exact ⟨fun k l hk hl => hsame k hk l hl, hrep, hentry⟩

end Pass

/-- Three blocks that are the same, the first of them an entrypoint, and one that is not. Notes of
an earlier round lead in a circle. -/
def Program.triplets : Program :=
  { temps := ⟨.replicate 8 none⟩
    blocks := #[
      { params := [⟨1⟩], code :=
          .bind [⟨2⟩] (.call ⟨⟨2⟩, [.temp ⟨1⟩]⟩) (.bind [⟨3⟩] (.call ⟨⟨3⟩, [.temp ⟨2⟩]⟩)
            (.jump ⟨⟨4⟩, [.temp ⟨3⟩]⟩)) },
      { params := [⟨4⟩], code := .done (.prim .add [.temp ⟨4⟩, .word 1]) },
      { params := [⟨5⟩], code := .done (.prim .add [.temp ⟨5⟩, .word 1]), replacement := some ⟨4⟩ },
      { params := [⟨6⟩], code := .done (.prim .add [.temp ⟨6⟩, .word 1]) },
      { params := [⟨7⟩], code := .done (.prim .add [.temp ⟨7⟩, .word 2]), replacement := some ⟨2⟩ }]
    entrypoints := [.block ⟨1⟩, .block ⟨0⟩] : Program }.setComponents
    [⟨[.block ⟨1⟩], false, []⟩, ⟨[.block ⟨2⟩], false, []⟩, ⟨[.block ⟨3⟩], false, []⟩,
      ⟨[.block ⟨4⟩], false, []⟩, ⟨[.block ⟨0⟩], false, [1, 2, 3]⟩]

theorem Pass.collapse_replaces_iff_same_triplets : Program.triplets.Current ∧
    ∃ r s', collapseBlocks { program := .triplets } = .ok r s' ∧
      s'.program.blockReplacement ⟨2⟩ = s'.program.blockReplacement ⟨3⟩ ∧
      s'.program.blockReplacement ⟨2⟩ ≠ s'.program.blockReplacement ⟨4⟩ ∧
      s'.program.blockReplacement ⟨1⟩ = ⟨1⟩ := by
  have hcurrent : triplets.Current :=
    ⟨triplets.components.toList, by decide +kernel, by decide +kernel⟩
  obtain ⟨⟨r, s', h, hiff, -, hentry⟩, -⟩ :=
    collapse_replaces_iff_same { program := .triplets } hcurrent
  refine ⟨hcurrent, r, s', h, ?_, ?_, hentry ⟨1⟩ (by decide +kernel)⟩
  · rw [hiff _ _ (by decide +kernel) (by decide +kernel) (by decide +kernel) (by decide +kernel)]
    exact ⟨_, _, rfl, rfl, by decide +kernel⟩
  · rw [Ne, hiff _ _ (by decide +kernel) (by decide +kernel) (by decide +kernel)
      (by decide +kernel)]
    rintro ⟨x, y, hx, hy, hxy⟩
    obtain rfl := Option.some.inj hx
    obtain rfl := Option.some.inj hy
    revert hxy
    decide +kernel

end MonadicIR
