import MonadicIR.Proofs.Counting
import MonadicIR.Proofs.LeastUsage
import MonadicIR.Proofs.NothingDead
import MonadicIR.Proofs.PruningRuns

namespace MonadicIR

open Component Program Usage List Option

theorem length_keep {α : Type} {items : List α} {flags : List Bool}
    (h : items.length = flags.length) : (keep items flags).length = flags.count true := by
  induction flags generalizing items with
  | nil => cases items <;> rfl
  | cons u us ih =>
    cases items with
    | nil => cases h
    | cons a as => cases u <;> simp [keep, ih (Nat.succ.inj h)]

namespace Usage

/-- The marks of what was kept, put back into their places. -/
def spread : List Bool → List Bool → List Bool
  | true :: flags, mark :: marks => mark :: spread flags marks
  | _ :: flags, marks => false :: spread flags marks
  | [], _ => []

theorem keep_keep {α : Type} (items : List α) (flags marks : List Bool) :
    keep (keep items flags) marks = keep items (spread flags marks) := by
  induction flags generalizing items marks with
  | nil => cases items <;> cases marks <;> rfl
  | cons u us ih =>
    cases items with
    | nil => cases marks <;> rfl
    | cons a as =>
      cases u with
      | false => simp [keep, spread, ih]
      | true =>
        cases marks with
        | nil => simpa [keep, spread] using ih as []
        | cons m ms => simp [keep, spread, ih]

theorem marks_spread (flags marks : List Bool) : Marks flags (spread flags marks) := by
  fun_induction spread flags marks with
  | case1 flags m ms ih => exact .cons (fun _ => rfl) ih
  | case2 u flags ms _ ih => exact .cons (fun h => nomatch h) ih
  | case3 => exact .nil

theorem spread_replicate (n : Nat) :
    spread (replicate n true) (replicate n true) = replicate n true := by
  induction n with
  | zero => rfl
  | succ n ih => simp [replicate_succ, spread, ih]

theorem eq_replicate_of_spread {flags marks : List Bool} (hlen : marks.length = flags.count true)
    (h : spread flags marks = flags) : marks = replicate marks.length true := by
  induction flags generalizing marks with
  | nil =>
    obtain rfl := length_eq_zero_iff.mp hlen
    rfl
  | cons u us ih =>
    cases u with
    | false => exact ih (by simpa using hlen) (List.cons.inj h).2
    | true =>
      cases marks with
      | nil => simp at hlen
      | cons m ms =>
        obtain ⟨rfl, hrest⟩ := List.cons.inj h
        rw [length_cons, replicate_succ, ← ih (by simpa using hlen) hrest]

theorem marks_spread_mark {used earlier earlier' xs : List Temp} {flags marks : List Bool}
    (hsub : ∀ x ∈ earlier', x ∈ earlier) (h : Marks flags (mark used earlier xs))
    (h' : Marks marks (mark used earlier' (keep xs flags))) :
    Marks (spread flags marks) (mark used earlier xs) := by
  induction xs generalizing earlier earlier' flags marks with
  | nil =>
    cases h
    exact .nil
  | cons x xs ih =>
    obtain _ | ⟨hf, hrest⟩ := h
    rename_i f flags
    cases f with
    | false =>
      exact .cons hf (ih (fun y hy => .tail _ (hsub y hy)) hrest h')
    | true =>
      obtain _ | ⟨hm, hrest'⟩ := h'
      refine .cons (fun hx => hm ?_) (ih (cons_subset_cons x hsub) hrest hrest')
      simp only [Bool.and_eq_true, Bool.not_eq_true', contains_iff_mem, ← Bool.not_eq_true] at hx ⊢
      exact ⟨hx.1, fun hmem => hx.2 (hsub x hmem)⟩

theorem mem_of_mark_eq_replicate {used earlier xs : List Temp} {n : Nat}
    (h : mark used earlier xs = replicate n true) : ∀ x ∈ xs, x ∈ used := by
  induction xs generalizing earlier n with
  | nil => simp
  | cons x xs ih =>
    cases n with
    | zero => cases h
    | succ n =>
      obtain ⟨hx, hrest⟩ := List.cons.inj h
      rintro y (_ | ⟨_, hy⟩)
      · exact contains_iff_mem.mp (Bool.and_eq_true_iff.mp hx).1
      · exact ih hrest y hy

theorem usedArgs_eq_keep {usage : Usage} {d : DefnId} {flags : List Bool}
    (hd : usage[d]? = some flags)
    {args : List Atom} (hlen : flags.length = args.length) :
      usage.usedArgs d args = keep args flags := by
  simp [usedArgs, hd, hlen]

/-- What the later table leaves of the marks for a definition. -/
def left (later : Usage) (d : DefnId) (flags : List Bool) : List Bool :=
  (later[d]?).elim flags (spread flags)

theorem marks_left (later : Usage) (d : DefnId) (flags : List Bool) :
    Marks flags (later.left d flags) := by
  unfold left
  cases later[d]? with
  | none => exact .refl flags
  | some marks => exact marks_spread flags marks

section Refs

variable (pruned : Usage) {e : DefnId}

theorem mem_refs_pruneTail {t : Tail} (he : e ∈ (pruned.pruneTail t).refs) : e ∈ t.refs := by
  cases t with
  | call c =>
    refine Tail.mem_refs_call.mpr ((Tail.mem_refs_call.mp he).imp_right ?_)
    rintro ⟨a, ha, htop⟩
    exact ⟨a, (pruned.kept_sublist _ _).subset ha, htop⟩
  | closure k args =>
    simp only [pruneTail, Tail.refs, Tail.atoms, mem_append, mem_filterMap] at he ⊢
    refine he.imp_right ?_
    rintro ⟨a, ha, htop⟩
    exact ⟨a, (pruned.kept_sublist _ _).subset ha, htop⟩
  | ret | enter | data | sel | prim => exact he

theorem mem_refs_pruneTail_of_takesArgs (htakes : e.takesArgs = true) {t : Tail} (he : e ∈ t.refs) :
    e ∈ (pruned.pruneTail t).refs := by
  have htop {as : List Atom} (hmem : e ∈ as.filterMap fun a => a.top?.map fun r => .top r.top) :
    False := by
    obtain ⟨a, -, ha⟩ := mem_filterMap.mp hmem
    obtain ⟨r, -, rfl⟩ := map_eq_some_iff.mp ha
    cases htakes
  cases t with
  | call c | closure k args =>
    exact mem_append_left _ ((mem_append.mp he).resolve_right htop)
  | ret | enter | data | sel | prim => exact he

theorem tails_pruneCode (code : Code) :
    (pruned.pruneCode code).tails = code.tails.map pruned.pruneTail := by
  induction code with
  | done t => rfl
  | bind vars t rest ih => exact congrArg (pruned.pruneTail t :: ·) ih
  | assert a ctor rest ih => exact ih
  | branch | switch => rfl

theorem calls_pruneCode (code : Code) :
    (pruned.pruneCode code).calls = code.calls.map pruned.pruneCall := by
  have hcall (t : Tail) : (pruned.pruneTail t).call?.toList = t.call?.toList.map
    pruned.pruneCall := by
    cases t <;> rfl
  induction code with
  | done t => exact hcall t
  | bind vars t rest ih =>
    rw [Code.calls, map_append, ← hcall, ← ih]
    rfl
  | assert a ctor rest ih => exact ih
  | branch => rfl
  | switch a alts => exact Alts.calls_mapCalls _ alts

theorem atoms_pruneCode {code : Code} {a : Atom} (ha : a ∈ (pruned.pruneCode code).atoms) :
    a ∈ code.atoms := by
  induction code with
  | done t => exact atoms_pruneTail ha
  | bind vars t rest ih =>
    obtain ha | ha := mem_append.mp ha
    · exact mem_append_left _ (atoms_pruneTail ha)
    · exact mem_append_right _ (ih ha)
  | assert b ctor rest ih =>
    obtain rfl | ha := mem_cons.mp ha
    · exact .head ..
    · exact .tail _ (ih ha)
  | branch test yes no =>
    obtain rfl | ha := mem_cons.mp ha
    · exact .head ..
    · refine .tail _ (mem_append.mpr ((mem_append.mp ha).imp ?_ ?_))
      · exact fun ha => (pruned.kept_sublist _ _).subset ha
      · exact fun ha => (pruned.kept_sublist _ _).subset ha
  | switch b alts =>
    obtain rfl | ha := mem_cons.mp ha
    · exact .head ..
    · obtain ⟨_, hc, ha⟩ := mem_flatMap.mp ha
      rw [Alts.calls_mapCalls] at hc
      obtain ⟨c, hmem, rfl⟩ := mem_map.mp hc
      exact .tail _ (mem_flatMap.mpr ⟨c, hmem, (pruned.kept_sublist _ _).subset ha⟩)

theorem mem_refs_pruneCode {code : Code} (he : e ∈ (pruned.pruneCode code).refs) :
    e ∈ code.refs := by
  rw [Code.mem_refs, tails_pruneCode, calls_pruneCode] at he
  refine Code.mem_refs.mpr (he.imp ?_ (Or.imp ?_ ?_))
  · rintro ⟨_, ht, he⟩
    obtain ⟨t, hmem, rfl⟩ := mem_map.mp ht
    exact ⟨t, hmem, pruned.mem_refs_pruneTail he⟩
  · rintro ⟨_, hc, he⟩
    obtain ⟨c, hmem, rfl⟩ := mem_map.mp hc
    exact ⟨c, hmem, he⟩
  · exact fun ⟨a, ha, he⟩ => ⟨a, pruned.atoms_pruneCode ha, he⟩

theorem mem_refs_pruneCode_of_takesArgs (htakes : e.takesArgs = true) {code : Code}
    (he : e ∈ code.refs) : e ∈ (pruned.pruneCode code).refs := by
  rw [Code.mem_refs] at he
  rw [Code.mem_refs, tails_pruneCode, calls_pruneCode]
  obtain ⟨t, ht, he⟩ | ⟨c, hc, he⟩ | ⟨a, -, r, -, rfl⟩ := he
  · exact .inl ⟨_, mem_map_of_mem ht, pruned.mem_refs_pruneTail_of_takesArgs htakes he⟩
  · exact .inr (.inl ⟨_, mem_map_of_mem hc, he⟩)
  · cases htakes

end Refs

end Usage

namespace Program

variable {p q : Program} {usage later pruned : Usage} {d e : DefnId}

theorem slots_mapNotes (p : Program) (f : DefnId → Notes → Notes) :
    (p.mapNotes f).slots = p.slots := by
  funext d
  cases d with
  | block b => cases hb : p.blocks[b.index]? <;> simp [slots, mapNotes, hb]
  | closure k => cases hk : p.closures[k.index]? <;> simp [slots, mapNotes, hk]
  | top => rfl

theorem slots_setComponents (p : Program) (cs : List Component) :
    (p.setComponents cs).slots = p.slots := by
  have hnotes := p.slots_mapNotes fun d notes =>
    { notes with component := (positions (cs.map members))[d]? }
  funext d
  cases d with
  | block b => exact congrFun hnotes (.block b)
  | closure k => exact congrFun hnotes (.closure k)
  | top => rfl

theorem slots_prunedBy (p : Program) (pruned : Usage) (d : DefnId) :
    (p.prunedBy pruned).slots d = pruned.kept d (p.slots d) := by
  have hnil : pruned.kept d ([] : List Temp) = [] := sublist_nil.mp (pruned.kept_sublist d [])
  cases d with
  | block b => cases hb : p.blocks[b.index]? <;> simp [slots, prunedBy, hb, hnil]
  | closure k => cases hk : p.closures[k.index]? <;> simp [slots, prunedBy, hk, hnil]
  | top => exact hnil.symm

theorem refers_of_prunedBy (h : (p.prunedBy pruned).Refers d e) : p.Refers d e := by
  cases d with
  | block b =>
    obtain ⟨_, hb, he⟩ := refers_block_iff.mp h
    rw [blocks_prunedBy, map_eq_some_iff] at hb
    obtain ⟨block, hb, rfl⟩ := hb
    exact refers_block_iff.mpr ⟨block, hb, pruned.mem_refs_pruneCode he⟩
  | closure k =>
    obtain ⟨_, hk, he⟩ := refers_closure_iff.mp h
    rw [closures_prunedBy, map_eq_some_iff] at hk
    obtain ⟨closure, hk, rfl⟩ := hk
    exact refers_closure_iff.mpr ⟨closure, hk, pruned.mem_refs_pruneTail he⟩
  | top t =>
    obtain ⟨_, ht, he⟩ := refers_top_iff.mp h
    rw [tops_prunedBy, map_eq_some_iff] at ht
    obtain ⟨top, ht, rfl⟩ := ht
    exact refers_top_iff.mpr ⟨top, ht, pruned.mem_refs_pruneTail he⟩

theorem refers_prunedBy_of_takesArgs (htakes : e.takesArgs = true) (h : p.Refers d e) :
    (p.prunedBy pruned).Refers d e := by
  cases d with
  | block b =>
    obtain ⟨block, hb, he⟩ := refers_block_iff.mp h
    exact refers_block_iff.mpr ⟨_, by rw [blocks_prunedBy, hb]; rfl,
      pruned.mem_refs_pruneCode_of_takesArgs htakes he⟩
  | closure k =>
    obtain ⟨closure, hk, he⟩ := refers_closure_iff.mp h
    exact refers_closure_iff.mpr ⟨_, by rw [closures_prunedBy, hk]; rfl,
      pruned.mem_refs_pruneTail_of_takesArgs htakes he⟩
  | top t =>
    obtain ⟨top, ht, he⟩ := refers_top_iff.mp h
    exact refers_top_iff.mpr ⟨_, by rw [tops_prunedBy, ht]; rfl,
      pruned.mem_refs_pruneTail_of_takesArgs htakes he⟩

namespace SameBodies

theorem trans {r : Program} (h : SameBodies p q) (h' : SameBodies q r) : SameBodies p r :=
  ⟨h'.blocks.trans h.blocks, h'.closures.trans h.closures, h'.tops.trans h.tops⟩

theorem bodyUses (h : SameBodies p q) (usage : Usage) : q.bodyUses usage = p.bodyUses usage := by
  have hbody {α β : Type} {xs ys : Array α} {body : α → β} (hxs : xs.map body = ys.map body)
    (i : Nat)
      (uses : β → List Temp) : xs[i]?.elim [] (uses ∘ body) = ys[i]?.elim [] (uses ∘ body) := by
    have hi := congrArg (fun zs : Array β => zs[i]?.elim [] uses) hxs
    simpa only [Array.getElem?_map, elim_map] using hi
  funext d
  cases d with
  | block b => exact hbody h.blocks b.index usage.codeUses
  | closure k => exact hbody h.closures k.index usage.tailUses
  | top => rfl

end SameBodies

/-- The second program is what a shake leaves of the first one without its unused arguments, and the
tables are their usages. -/
structure Reused (p : Program) (usage : Usage) (q : Program) (later : Usage) : Prop where
  current : p.Current
  checked : p.check = .ok ()
  uses : p.usage = .ok usage
  accounts : p.Accounts usage (Component.allMembers p.components.toList)
  shaken : q.Current
  usesLater : q.usage = .ok later
  accountsLater : q.Accounts later (Component.allMembers q.components.toList)
  bodies : SameBodies (p.prunedBy usage.removable) q
  slots : ∀ d, q.slots d = usage.removable.kept d (p.slots d)
  entrypoints : q.entrypoints = p.entrypoints

namespace Reused

variable (h : Reused p usage q later)

include h

theorem refers_iff (htakes : e.takesArgs = true) : q.Refers d e ↔ p.Refers d e := by
  rw [h.bodies.refers]
  exact ⟨refers_of_prunedBy, refers_prunedBy_of_takesArgs htakes⟩

theorem retained (hd : q.Retained d) : p.Retained d := by
  have hroots : q.roots = p.roots := by
    rw [h.bodies.roots h.entrypoints]
    refine filter_congr fun d _ => ?_
    cases d <;> simp [defines, prunedBy]
  have hdec := decomposition_ofRoots h.current.components
  obtain ⟨root, hroot, hlead⟩ := ((decomposition_ofRoots h.shaken.components).members d).mp hd
  refine (hdec.members d).mpr ⟨root, hroots ▸ hroot, ?_⟩
  exact Relation.ReflTransGen.mono (fun _ _ hde => refers_of_prunedBy (h.bodies.refers ▸ hde)) _ _
    hlead

theorem entries (hd : q.Retained d) (htakes : d.takesArgs = true) :
    ∃ flags marks, usage[d]? = some flags ∧ later[d]? = some marks ∧
      flags.length = (p.slots d).length ∧ marks.length = flags.count true := by
  obtain ⟨flags, hflags⟩ := isSome_iff_exists.mp
    ((usage_lists h.current h.uses d).mpr ⟨h.retained hd, htakes⟩)
  obtain ⟨marks, hmarks⟩ := isSome_iff_exists.mp
    ((usage_lists h.shaken h.usesLater d).mpr ⟨hd, htakes⟩)
  have hlen := h.accounts.sized d flags hflags
  refine ⟨flags, marks, hflags, hmarks, hlen, ?_⟩
  rw [h.accountsLater.sized d marks hmarks, h.slots, kept_removable hflags hlen,
    length_keep hlen.symm]

/-- Arguments that count by the marks put back are those that count where they are still passed. -/
theorem usedArgs (hd : q.Retained d) (htakes : d.takesArgs = true) {args : List Atom}
    (hargs : (p.slots d).length = args.length) :
    usedArgs (Std.TreeMap.map later.left usage) d args =
      later.usedArgs d (usage.removable.pruneArgs d args) := by
  obtain ⟨flags, marks, hflags, hmarks, hlen, hcount⟩ := h.entries hd htakes
  have hleft : (Std.TreeMap.map later.left usage)[d]? = some (spread flags marks) := by
    simp [Std.TreeMap.getElem?_map, hflags, Usage.left, hmarks]
  have hspread : (spread flags marks).length = args.length := by
    rw [(marks_spread flags marks).length_eq, hlen, hargs]
  have hkept : usage.removable.pruneArgs d args = keep args flags :=
    kept_removable hflags (hlen.trans hargs)
  rw [usedArgs_eq_keep hleft hspread, hkept, ← keep_keep, usedArgs_eq_keep hmarks]
  rw [hcount, length_keep (hlen.trans hargs).symm]

theorem callUses {c : Call} (hrefs : ∀ e ∈ (Tail.call c).refs, e.takesArgs = true → q.Retained e)
    (hcheck : p.checkTail d (.call c) = .ok ()) :
    Usage.callUses (Std.TreeMap.map later.left usage) c = later.callUses
      (usage.removable.pruneCall c) := by
  obtain ⟨block, hb, hl⟩ := checkShape_call.mp (checkTail_eq_ok_iff.mp hcheck).2
  have hargs : (p.slots (.block c.target)).length = c.args.length := by
    rw [Prunes.slots_block hb, hl]
  rw [Usage.callUses, h.usedArgs (hrefs _ (by simp [Tail.refs]) rfl) rfl hargs]
  rfl

theorem tailUses {t : Tail} (hrefs : ∀ e ∈ t.refs, e.takesArgs = true → q.Retained e)
    (hcheck : p.checkTail d t = .ok ()) :
    Usage.tailUses (Std.TreeMap.map later.left usage) t = later.tailUses
      (usage.removable.pruneTail t) := by
  cases t with
  | call c => exact h.callUses hrefs hcheck
  | closure k args =>
    obtain ⟨closure, hk, hl⟩ := checkShape_closure.mp (checkTail_eq_ok_iff.mp hcheck).2
    have hargs : (p.slots (.closure k)).length = args.length := by rw [Prunes.slots_closure hk, hl]
    rw [Usage.tailUses, h.usedArgs (hrefs _ (by simp [Tail.refs]) rfl) rfl hargs]
    rfl
  | ret | enter | data | sel | prim => rfl

theorem codeUses {code : Code} {bound : List Temp}
    (hrefs : ∀ e ∈ code.refs, e.takesArgs = true → q.Retained e)
    (hcheck : p.checkCode d code bound = .ok ()) :
    Usage.codeUses (Std.TreeMap.map later.left usage) code = later.codeUses
      (usage.removable.pruneCode code) := by
  induction code generalizing bound with
  | done t => exact h.tailUses (Code.refs_done.mp hrefs) hcheck
  | bind vars t rest ih =>
    obtain ⟨ht, -, -, -, hrest⟩ := checkCode_bind.mp hcheck
    obtain ⟨hrefst, hrefsr⟩ := Code.refs_bind.mp hrefs
    rw [Usage.codeUses, ih hrefsr hrest, h.tailUses hrefst ht]
    rfl
  | assert a ctor rest ih =>
    obtain ⟨-, -, hrest⟩ := checkCode_assert.mp hcheck
    rw [Usage.codeUses, ih (Code.refs_assert.mp hrefs).2 hrest]
    rfl
  | branch test yes no =>
    obtain ⟨-, hcalls⟩ := checkCode_branch.mp hcheck
    have hrefsc := (Code.refs_branch.mp hrefs).2
    rw [Usage.codeUses, h.callUses (hrefsc yes (by simp)) (hcalls yes (by simp)),
      h.callUses (hrefsc no (by simp)) (hcalls no (by simp))]
    rfl
  | switch a alts =>
    obtain ⟨-, hcalls, -⟩ := checkCode_switch.mp hcheck
    have hrefsc := (Code.refs_switch.mp hrefs).2
    have hall : alts.calls.flatMap (Usage.callUses (Std.TreeMap.map later.left usage)) =
        alts.calls.flatMap fun c => later.callUses (usage.removable.pruneCall c) :=
      flatMap_congr fun c hc => h.callUses (hrefsc c hc) (hcalls c hc)
    have hpruned : usage.removable.pruneCode (.switch a alts) =
      .switch a (alts.mapCalls usage.removable.pruneCall) := rfl
    rw [Usage.codeUses, hall, hpruned, Usage.codeUses, Alts.calls_mapCalls, flatMap_map]

theorem bodyUses (hd : q.Retained d) :
    p.bodyUses (Std.TreeMap.map later.left usage) d = q.bodyUses later d := by
  have hrefs (e : DefnId) (hde : p.Refers d e) (htakes : e.takesArgs = true) : q.Retained e := by
    obtain ⟨cs, hcs, he⟩ := (h.refers_iff htakes).mpr hde
    exact h.shaken.retained_callee hd hcs he
  have hcheck := checkDefn_of_retained h.checked (h.retained hd)
  rw [h.bodies.bodyUses]
  cases d with
  | block b =>
    obtain ⟨block, hb, -, hcode⟩ := checkDefn_block.mp hcheck
    simp only [bodyUses, blocks_prunedBy, hb, map_some, Option.elim]
    exact h.codeUses (fun e he => hrefs e (refers_block_iff.mpr ⟨block, hb, he⟩)) hcode
  | closure k =>
    obtain ⟨closure, hk, -, htail⟩ := checkDefn_closure.mp hcheck
    simp only [bodyUses, closures_prunedBy, hk, map_some, Option.elim]
    exact h.tailUses (fun e he => hrefs e (refers_closure_iff.mpr ⟨closure, hk, he⟩)) htail
  | top => rfl

theorem left_entrypoint {flags : List Bool} (hd : usage[d]? = some flags)
    (hentry : p.isEntrypoint d = true) : later.left d flags = flags := by
  cases hmarks : later[d]? with
  | none => simp [Usage.left, hmarks]
  | some marks =>
    have htakes := ((usage_lists h.current h.uses d).mp (by simp [hd])).2
    obtain ⟨_, _, hflags, hlater, -, hcount⟩ := h.entries (h.accountsLater.mem d marks hmarks)
      htakes
    obtain rfl := mem_unique hd hflags
    obtain rfl := mem_unique hmarks hlater
    have hentry' : q.isEntrypoint d = true := by rwa [isEntrypoint, h.entrypoints]
    have hall := h.accounts.entrypoint d flags hd hentry
    have hall' := h.accountsLater.entrypoint d marks hmarks hentry'
    have hslots : (q.slots d).length = (p.slots d).length := by simpa [hall, hall'] using hcount
    rw [Usage.left, hmarks, Option.elim, hall, hall', hslots, spread_replicate]

/-- The table with the marks put back accounts for the bodies before the removal. -/
theorem settled {flags : List Bool} (hd : usage[d]? = some flags) :
    Marks (later.left d flags) (p.usedSlots (Std.TreeMap.map later.left usage) d) := by
  have hbelow (e : DefnId) : Below (Std.TreeMap.map later.left usage) usage e :=
    below_map (fun d flags _ => later.marks_left d flags) e
  have hmarked : Marks flags (p.usedSlots (Std.TreeMap.map later.left usage) d) :=
    (usedSlots_mono fun e _ => (hbelow e).narrows).trans
      (h.accounts.settled d (h.accounts.mem d flags hd) flags hd)
  cases hmarks : later[d]? with
  | none => simpa [Usage.left, hmarks] using hmarked
  | some marks =>
    have hret := h.accountsLater.mem d marks hmarks
    have hlater := h.accountsLater.settled d hret marks hmarks
    rw [usedSlots, h.slots, kept_removable hd (h.accounts.sized d flags hd)] at hlater
    rw [usedSlots, h.bodyUses hret] at hmarked ⊢
    rw [Usage.left, hmarks]
    exact marks_spread_mark (fun _ => id) hmarked hlater

theorem marked {marks : List Bool} (hd : later[d]? = some marks) :
    marks = replicate marks.length true := by
  have htakes := ((usage_lists h.shaken h.usesLater d).mp (by simp [hd])).2
  obtain ⟨flags, _, hflags, hmarks, -, hcount⟩ := h.entries (h.accountsLater.mem d marks hd) htakes
  obtain rfl := mem_unique hd hmarks
  have hsame : later.left d flags = flags :=
    usage_eq_of_settled h.current h.uses h.accounts (fun d flags _ => later.marks_left d flags)
      (fun _ _ => h.left_entrypoint) (fun _ _ => h.settled) hflags
  exact eq_replicate_of_spread hcount (by simpa [Usage.left, hd] using hsame)

theorem unused_eq_nil : later.unused = [] := by
  refine filter_eq_nil_iff.mpr fun e he => ?_
  obtain ⟨d, marks⟩ := e
  have hmarked := h.marked (Std.TreeMap.mem_toList_iff_getElem?_eq_some.mp he)
  rw [hmarked]
  simp

theorem mem_bodyUses (hd : q.Retained d) (htakes : d.takesArgs = true)
    (hentry : d ∉ q.entrypoints) : ∀ x ∈ q.slots d, x ∈ q.bodyUses later d := by
  obtain ⟨_, marks, -, hmarks, -, -⟩ := h.entries hd htakes
  have hused := usedSlots_eq_of_usage h.shaken h.usesLater h.accountsLater
    (by simpa [isEntrypoint] using hentry) hmarks
  rw [h.marked hmarks] at hused
  exact mem_of_mark_eq_replicate hused

end Reused

end Program

namespace Usage

variable (usage : Usage) {x : Temp}

theorem mem_tempsOf_of_usedArgs {d : DefnId} {args : List Atom}
    (hx : x ∈ (usage.usedArgs d args).filterMap Atom.temp?) : x ∈ tempsOf args := by
  refine ((?_ : (usage.usedArgs d args).Sublist args).filterMap _).subset hx
  unfold usedArgs
  split
  · exact keep_sublist ..
  · exact List.Sublist.refl _

theorem mem_temps_of_tailUses {t : Tail} (hx : x ∈ usage.tailUses t) : x ∈ t.temps := by
  cases t with
  | call | closure => exact usage.mem_tempsOf_of_usedArgs hx
  | ret | enter | data | sel | prim => exact hx

theorem mem_freeTemps_of_codeUses {code : Code} (hx : x ∈ usage.codeUses code) :
    x ∈ code.freeTemps := by
  have hcall {c : Call} (hx : x ∈ usage.callUses c) : ∃ a ∈ c.args, a.temp? = some x :=
    mem_filterMap.mp (usage.mem_tempsOf_of_usedArgs hx)
  induction code with
  | done t =>
    simpa [Code.freeTemps, mem_distinct, Code.openReads] using usage.mem_temps_of_tailUses hx
  | bind vars t rest ih =>
    simp only [codeUses, mem_append, mem_filter] at hx
    refine Code.mem_freeTemps_bind.mpr (hx.symm.imp usage.mem_temps_of_tailUses fun hx => ?_)
    exact ⟨ih hx.1, by simpa using hx.2⟩
  | assert a ctor rest ih =>
    simp only [codeUses, mem_append, mem_toList] at hx
    exact Code.mem_freeTemps_assert.mpr (hx.symm.imp_right ih)
  | branch test yes no =>
    simp only [codeUses, mem_append, mem_toList] at hx
    simp only [Code.freeTemps, mem_distinct, Code.openReads, tempsOf, Code.atoms, mem_filter,
      mem_filterMap, mem_cons, mem_append]
    refine ⟨?_, by simp⟩
    obtain (htest | hyes) | hno := hx
    · exact ⟨test, .inl rfl, htest⟩
    · obtain ⟨a, ha, hax⟩ := hcall hyes
      exact ⟨a, .inr (.inl ha), hax⟩
    · obtain ⟨a, ha, hax⟩ := hcall hno
      exact ⟨a, .inr (.inr ha), hax⟩
  | switch a alts =>
    simp only [codeUses, mem_append, mem_toList, mem_flatMap] at hx
    simp only [Code.freeTemps, mem_distinct, Code.openReads, tempsOf, Code.atoms, mem_filter,
      mem_filterMap, mem_cons, mem_flatMap]
    refine ⟨?_, by simp⟩
    obtain htest | ⟨c, hc, hx⟩ := hx
    · exact ⟨a, .inl rfl, htest⟩
    · obtain ⟨b, hb, hbx⟩ := hcall hx
      exact ⟨b, .inr ⟨c, hc, hb⟩, hbx⟩

end Usage

namespace Program

theorem Reused.liveArgs_block {p q : Program} {usage later : Usage} (h : Reused p usage q later)
    {b : BlockId} (hb : q.Retained (.block b)) (hentry : .block b ∉ q.entrypoints) :
    ∃ block, q.block b = .ok block ∧ q.liveArgs (.block b) = .ok block.params := by
  obtain ⟨block, hblock⟩ := defines_block_iff.mp
    (defines_of_callees (h.shaken.callees hb).choose_spec)
  have huses := h.mem_bodyUses hb rfl hentry
  simp only [Program.slots, Program.bodyUses, hblock, Option.elim] at huses
  refine ⟨block, block_eq_ok_iff.mpr hblock, map_eq_ok_iff.mpr ⟨block, block_eq_ok_iff.mpr hblock,
    ?_⟩⟩
  exact filter_eq_self.mpr fun x hx =>
    contains_iff_mem.mpr (later.mem_freeTemps_of_codeUses (huses x hx))

theorem Reused.liveArgs_closure {p q : Program} {usage later : Usage} (h : Reused p usage q later)
    {k : ClosureId} (hk : q.Retained (.closure k)) (hentry : .closure k ∉ q.entrypoints) :
    ∃ closure live, q.closure k = .ok closure ∧ q.liveArgs (.closure k) = .ok live ∧
      closure.stored <+: live := by
  obtain ⟨closure, hclosure⟩ := defines_closure_iff.mp
    (defines_of_callees (h.shaken.callees hk).choose_spec)
  have huses := h.mem_bodyUses hk rfl hentry
  simp only [Program.slots, Program.bodyUses, hclosure, Option.elim] at huses
  refine ⟨closure, _, closure_eq_ok_iff.mpr hclosure,
    map_eq_ok_iff.mpr ⟨closure, closure_eq_ok_iff.mpr hclosure, rfl⟩, ?_⟩
  have hall : closure.stored.filter closure.tail.temps.contains = closure.stored :=
    filter_eq_self.mpr fun x hx =>
      contains_iff_mem.mpr (later.mem_temps_of_tailUses (huses x hx))
  rw [filter_append, hall]
  exact prefix_append _ _

theorem prunedBy_of_none {pruned : Usage} (hnone : ∀ d : DefnId, pruned[d]? = none) (p : Program) :
    p.prunedBy pruned = p := by
  have hkept {α : Type} (d : DefnId) (items : List α) : pruned.kept d items = items :=
    kept_of_none (hnone d) items
  have hcall (c : Call) : pruned.pruneCall c = c := congrArg (Call.mk c.target) (hkept _ c.args)
  have htail (t : Tail) : pruned.pruneTail t = t := by
    cases t with
    | call c => exact congrArg Tail.call (hcall c)
    | closure k args => exact congrArg (Tail.closure k) (hkept _ args)
    | ret | enter | data | sel | prim => rfl
  have hcode (code : Code) : pruned.pruneCode code = code := by
    induction code with
    | done t => exact congrArg Code.done (htail t)
    | bind vars t rest ih => exact congrArg₂ (Code.bind vars) (htail t) ih
    | assert a ctor rest ih => exact congrArg (Code.assert a ctor) ih
    | branch test yes no => exact congrArg₂ (Code.branch test) (hcall yes) (hcall no)
    | switch a alts => exact congrArg (Code.switch a) (Alts.mapCalls_eq_self fun c _ => hcall c)
  have hblocks : (p.blocks.mapIdx fun _ x => x) = p.blocks := Array.ext (by simp) (by simp)
  have hclosures : (p.closures.mapIdx fun _ x => x) = p.closures := Array.ext (by simp) (by simp)
  simp [prunedBy, hkept, hcode, htail, hblocks, hclosures]

theorem reused_of_shake {p : Program} {usage : Usage} (hcurrent : p.Current)
    (hcheck : p.check = .ok ()) (husage : p.usage = .ok usage)
    (haccounts : p.Accounts usage (allMembers p.components.toList)) {s s' : Workbench}
    (hs : s.program = p.prunedBy usage.removable) (hshake : Pass.shake s = .ok () s') :
    ∃ later, Reused p usage s'.program later := by
  have hshaken : s'.program.Current := (upToDate_of_shake hshake).1.current
  obtain ⟨later, hlater, haccounts'⟩ := usage_spec hshaken
  refine ⟨later, hcurrent, hcheck, husage, haccounts, hshaken, hlater, haccounts', ?_, fun d => ?_,
    ?_⟩ <;>
    obtain ⟨cs, rs, -, -, -, rfl⟩ := Pass.shake_spec hshake
  · rw [← hs]
    exact (s.program.sameBodies_setComponents cs).trans (sameBodies_mapNotes _ _)
  · rw [slots_mapNotes, slots_setComponents, hs, slots_prunedBy]
  · change s.program.entrypoints = p.entrypoints
    rw [hs]
    rfl

end Program

namespace Pass

/-- One removal of unused arguments is enough. Once the program has been shaken, a second one
changes and reports nothing, and blocks and closures that are no entrypoints read all that they are
passed and have stored. -/
theorem unusedArgs_complete (s : Workbench) (hcheck : s.program.check = .ok ())
    (hcurrent : s.program.Current) :
    ∃ s1, unusedArgs s = .ok () s1 ∧ ∀ s2, shake s1 = .ok () s2 →
      unusedArgs s2 = .ok () s2 ∧
      (∀ b, s2.program.Retained (.block b) → .block b ∉ s2.program.entrypoints →
        ∃ block, s2.program.block b = .ok block ∧
          s2.program.liveArgs (.block b) = .ok block.params) ∧
      ∀ k, s2.program.Retained (.closure k) → .closure k ∉ s2.program.entrypoints →
        ∃ closure live, s2.program.closure k = .ok closure ∧
          s2.program.liveArgs (.closure k) = .ok live ∧ closure.stored <+: live := by
  obtain ⟨usage, husage, haccounts⟩ := usage_spec hcurrent
  have hprune := prune_ok usage.unused_pairwise (haccounts.defines_of_mem_unused hcurrent)
  refine ⟨_, bind_ok_iff.mpr ⟨usage, s, look_eq_ok_iff.mpr ⟨husage, rfl⟩, hprune⟩,
    fun s2 hshake => ?_⟩
  obtain ⟨later, hreused⟩ := reused_of_shake hcurrent hcheck husage haccounts rfl hshake
  refine ⟨?_, fun b => hreused.liveArgs_block, fun k => hreused.liveArgs_closure⟩
  have hagain := prune_ok (s := s2) List.Pairwise.nil (by simp)
  rw [prunedBy_of_none (by simp)] at hagain
  refine bind_ok_iff.mpr ⟨later, s2, look_eq_ok_iff.mpr ⟨hreused.usesLater, rfl⟩, ?_⟩
  rw [hreused.unused_eq_nil, hagain]
  obtain ⟨cs, rs, -, -, -, rfl⟩ := shake_spec hshake
  simp

end Pass

/-- A loop hands on a top-level that nothing reads, and a closure stores a word that it does not
need. -/
def Program.leftovers : Program where
  temps := ⟨.replicate 12 none⟩
  blocks := #[
    { params := [⟨1⟩]
      code := .bind [⟨2⟩] (.closure ⟨0⟩ [.temp ⟨1⟩, .word 5])
        (.jump ⟨⟨1⟩, [.temp ⟨1⟩, .temp ⟨2⟩, .top ⟨⟨0⟩, 0⟩]⟩) },
    { params := [⟨3⟩, ⟨4⟩, ⟨5⟩]
      code := .bind [⟨6⟩] (.prim .eq [.temp ⟨3⟩, .word 0])
        (.branch (.temp ⟨6⟩) ⟨⟨2⟩, [.temp ⟨4⟩]⟩ ⟨⟨1⟩, [.word 0, .temp ⟨4⟩, .temp ⟨5⟩]⟩) },
    { params := [⟨7⟩]
      code := .done (.enter (.temp ⟨7⟩) [.word 1]) }]
  closures := #[
    { stored := [⟨8⟩, ⟨9⟩]
      params := [⟨10⟩]
      tail := .prim .add [.temp ⟨8⟩, .temp ⟨10⟩] },
    { stored := []
      params := [⟨11⟩]
      tail := .ret [.temp ⟨11⟩] }]
  tops := #[{ lhs := [⟨"identity", none⟩], tail := .closure ⟨1⟩ [] }]
  entrypoints := [.block ⟨0⟩]

namespace Pass

/-- The top-level and the closure behind it are gone once nothing is passed for them. -/
theorem unusedArgs_complete_leftovers : ∃ w s1 s2, Program.leftovers.shake = .ok () w ∧
    w.program.check = .ok () ∧ w.program.Current ∧ unusedArgs w = .ok () s1 ∧ shake s1 = .ok () s2 ∧
    Component.allMembers s2.program.components.toList =
      [.closure ⟨0⟩, .block ⟨2⟩, .block ⟨1⟩, .block ⟨0⟩] ∧ unusedArgs s2 = .ok () s2 ∧
    s2.program.liveArgs (.block ⟨1⟩) = .ok [⟨3⟩, ⟨4⟩] ∧
    ∃ live, s2.program.liveArgs (.closure ⟨0⟩) = .ok live ∧ [⟨8⟩] <+: live := by
  obtain ⟨⟨⟩, s2, hrun, htest⟩ := exists_ok
    (r := (do shake; look check; unusedArgs; shake : Pass Unit) { program := .leftovers })
    (fun _ s => allMembers s.program.components.toList ==
        [.closure ⟨0⟩, .block ⟨2⟩, .block ⟨1⟩, .block ⟨0⟩] && s.program.entrypoints ==
          [.block ⟨0⟩] &&
      (s.program.blocks[1]?).map Block.params == some [⟨3⟩, ⟨4⟩] &&
      (s.program.closures[0]?).map Closure.stored == some [⟨8⟩]) (by cbv)
  simp only [Bool.and_eq_true, beq_iff_eq, and_assoc] at htest
  obtain ⟨hmembers, hentry, hblock, hclosure⟩ := htest
  obtain ⟨⟨⟩, w, hw, hrest⟩ := bind_ok_iff.mp hrun
  obtain ⟨⟨⟩, w', hlook, hprune⟩ := bind_ok_iff.mp hrest
  obtain ⟨hcheck, rfl⟩ := look_eq_ok_iff.mp hlook
  obtain ⟨⟨⟩, s1, hs1, hs2⟩ := bind_ok_iff.mp hprune
  have hcurrent := (upToDate_of_shake hw).1.current
  obtain ⟨_, hs1', hcomplete⟩ := unusedArgs_complete _ hcheck hcurrent
  obtain ⟨-, rfl⟩ := EStateM.Result.ok.inj (hs1.symm.trans hs1')
  obtain ⟨hagain, hblocks, hclosures⟩ := hcomplete s2 hs2
  obtain ⟨block, hb, hlive⟩ := hblocks ⟨1⟩ (by simp [Retained, hmembers]) (by simp [hentry])
  obtain ⟨closure, live, hk, hlive', hprefix⟩ :=
    hclosures ⟨0⟩ (by simp [Retained, hmembers]) (by simp [hentry])
  rw [block_eq_ok_iff.mp hb, map_some, Option.some.injEq] at hblock
  rw [closure_eq_ok_iff.mp hk, map_some, Option.some.injEq] at hclosure
  exact ⟨_, s1, s2, hw, hcheck, hcurrent, hs1, hs2, hmembers, hagain, hblock ▸ hlive, live, hlive',
    hclosure ▸ hprefix⟩

end Pass

end MonadicIR
