import MonadicIR.Proofs.NeverReturning

namespace MonadicIR

open Component List

/-- Is the block that the tail calls, if any, one of these? -/
def Tail.CallsTo (f : BlockId → Prop) (t : Tail) : Prop := ∀ c, t.call? = some c → f c.target

/-- May the code return, if these blocks may? All calls on the way have to, and some branch. -/
def Code.MayReturn (f : BlockId → Prop) : Code → Prop
  | done t => t.CallsTo f
  | bind _ t rest => t.CallsTo f ∧ rest.MayReturn f
  | assert _ _ rest => rest.MayReturn f
  | branch _ yes no => f yes.target ∨ f no.target
  | switch _ alts => ∃ c ∈ alts.calls, f c.target

theorem Code.MayReturn.mono {f g : BlockId → Prop} {code : Code}
    (hfg : ∀ c ∈ code.calls, f c.target → g c.target) (h : code.MayReturn f) :
      code.MayReturn g := by
  induction code with
  | done t => exact fun c hc => hfg c (by simp [calls, hc]) (h c hc)
  | bind vars t rest ih =>
    exact ⟨fun c hc => hfg c (by simp [calls, hc]) (h.1 c hc),
      ih (fun c hc => hfg c (mem_append_right _ hc)) h.2⟩
  | assert a ctor rest ih => exact ih hfg h
  | branch test yes no => exact h.imp (hfg yes (by simp [calls])) (hfg no (by simp [calls]))
  | switch a alts =>
    obtain ⟨c, hc, hf⟩ := h
    exact ⟨c, hc, hfg c hc hf⟩

namespace Program

variable {p : Program}

/-- May the block return, with so many blocks at most inside each other? -/
def ReturnsWithin (p : Program) : Nat → BlockId → Prop
  | 0, _ => False
  | n + 1, b => ∃ block, p.blocks[b.index]? = some block ∧ block.code.MayReturn (p.ReturnsWithin n)

theorem ReturnsWithin.mono {n m : Nat} {b : BlockId} (h : p.ReturnsWithin n b) (hnm : n ≤ m) :
    p.ReturnsWithin m b := by
  induction n generalizing m b with
  | zero => exact h.elim
  | succ n ih =>
    obtain ⟨m, rfl⟩ := Nat.exists_eq_add_of_le' (le_trans (Nat.succ_le_succ (Nat.zero_le n)) hnm)
    obtain ⟨block, hblock, hcode⟩ := h
    exact ⟨block, hblock, hcode.mono fun c _ hc => ih hc (Nat.le_of_succ_le_succ hnm)⟩

theorem exists_returnsWithin {bs : List BlockId} (h : ∀ b ∈ bs, ∃ n, p.ReturnsWithin n b) :
    ∃ n, ∀ b ∈ bs, p.ReturnsWithin n b := by
  induction bs with
  | nil => exact ⟨0, by simp⟩
  | cons b bs ih =>
    obtain ⟨⟨n, hn⟩, h⟩ := forall_mem_cons.mp h
    obtain ⟨m, hm⟩ := ih h
    refine ⟨max n m, forall_mem_cons.mpr ⟨hn.mono (Nat.le_max_left n m), fun c hc => ?_⟩⟩
    exact (hm c hc).mono (Nat.le_max_right n m)

section Noted

variable {f : DefnId → Bool}

theorem callsTo_of_tailNeverReturns {t : Tail} (h : (p.noted f).tailNeverReturns t = .ok false) :
    t.CallsTo fun b => f (.block b) = false := by
  intro c hc
  cases t with
  | call d =>
    obtain rfl := Option.some.inj hc
    exact callNeverReturns_noted h
  | ret | enter | data | closure | sel | prim => cases hc

theorem exists_of_callsNeverReturn {cs : List Call}
    (h : (p.noted f).callsNeverReturn cs = .ok false) : ∃ c ∈ cs, f (.block c.target) = false := by
  induction cs with
  | nil => cases h
  | cons c cs ih =>
    simp only [callsNeverReturn, bind_eq_ok_iff] at h
    obtain ⟨first, hfirst, others, hothers, h⟩ := h
    cases first with
    | false => exact ⟨c, .head .., callNeverReturns_noted hfirst⟩
    | true =>
      obtain rfl : others = false := by simpa [pure, Except.pure] using h
      obtain ⟨d, hd, hfd⟩ := ih hothers
      exact ⟨d, mem_cons_of_mem c hd, hfd⟩

theorem mayReturn_of_codeNeverReturns {code : Code}
    (h : (p.noted f).codeNeverReturns code = .ok false) :
    code.MayReturn fun b => f (.block b) = false := by
  induction code with
  | done t => exact callsTo_of_tailNeverReturns h
  | bind vars t rest ih =>
    obtain ⟨v, ht, h⟩ := bind_eq_ok_iff.mp h
    cases v with
    | true => cases h
    | false => exact ⟨callsTo_of_tailNeverReturns ht, ih h⟩
  | assert a ctor rest ih => exact ih h
  | branch test yes no =>
    obtain ⟨v, hyes, h⟩ := bind_eq_ok_iff.mp h
    cases v with
    | true => exact .inr (callNeverReturns_noted h)
    | false => exact .inl (callNeverReturns_noted hyes)
  | switch a alts => exact exists_of_callsNeverReturn h

/-- Of these definitions, blocks without the note may return. -/
def Ranked (p : Program) (f : DefnId → Bool) (ds : List DefnId) : Prop :=
  ∀ b, .block b ∈ ds → f (.block b) = false → ∃ n, p.ReturnsWithin n b

/-- All calls of these blocks stay among the others. -/
def CallsAmong (p : Program) (ds others : List DefnId) : Prop :=
  ∀ b block, .block b ∈ ds → p.blocks[b.index]? = some block →
    ∀ c ∈ block.code.calls, .block c.target ∈ others

def CallsBack (p : Program) (cs : List Component) : Prop :=
  ∀ before c after, cs = before ++ c :: after →
    p.CallsAmong c.members (Component.allMembers (before ++ [c]))

/-- A supposition about one more block is withdrawn, as the others say that it may return. -/
theorem Ranked.withdraw {d : DefnId} {ds : List DefnId} (h : p.Ranked f ds)
    (hcalls : p.CallsAmong [d] ds) (hd : (p.noted f).defnNeverReturns d = .ok false) :
    p.Ranked (Function.update f d false) ds := by
  intro b hb hfb
  by_cases hbd : .block b = d
  · subst hbd
    obtain ⟨block', hblock', hcode⟩ := bind_eq_ok_iff.mp hd
    rw [block_eq_ok_iff, getElem?_blocks_noted, Option.map_eq_some_iff] at hblock'
    obtain ⟨block, hblock, rfl⟩ := hblock'
    -- the calls that the code may return from have ranks, so there is a bound for all of them
    have htargets (c : Call) (hc : c ∈ block.code.calls) (hfc : f (.block c.target) = false) :=
      h c.target (hcalls b block (mem_singleton.mpr rfl) hblock c hc) hfc
    have hall : ∀ t ∈ (block.code.calls.map Call.target).filter fun t => !f (.block t),
        ∃ n, p.ReturnsWithin n t := by
      intro t ht
      obtain ⟨ht, hft⟩ := mem_filter.mp ht
      obtain ⟨c, hc, rfl⟩ := mem_map.mp ht
      exact htargets c hc (by simpa using hft)
    obtain ⟨n, hn⟩ := exists_returnsWithin hall
    refine ⟨n + 1, block, hblock, (mayReturn_of_codeNeverReturns hcode).mono fun c hc hfc =>
      hn _ ?_⟩
    exact mem_filter.mpr ⟨mem_map_of_mem hc, by simp [hfc]⟩
  · rw [Function.update_of_ne hbd] at hfb
    exact h b hb hfb

end Noted

end Program

namespace Edit

variable {p p' : Program} {f : DefnId → Bool}

theorem withdraw_ranked {ds all : List DefnId} (hcalls : p.CallsAmong ds all) {v : Bool}
    (hf : p.Ranked f all) (h : withdraw ds (p.noted f) = .ok v p') :
    ∃ g, p' = p.noted g ∧ p.Ranked g all := by
  induction ds generalizing f v with
  | nil => exact ⟨f, (pure_ok_iff.mp h).2, hf⟩
  | cons d ds ih =>
    have hcalls' : p.CallsAmong ds all := fun b block hb => hcalls b block (mem_cons_of_mem d hb)
    obtain ⟨notes, -, ⟨-, hrefuted, -, _, _, hd, h⟩ | ⟨-, h⟩⟩ := withdraw_cons_eq_ok h
    · obtain rfl := noteNeverReturns_noted hd
      have hcallsd : p.CallsAmong [d] all := fun b block hb =>
        hcalls b block (mem_cons.mpr (.inl (mem_singleton.mp hb)))
      exact ih hcalls' (hf.withdraw hcallsd hrefuted) h
    · exact ih hcalls' hf h

theorem settle_ranked {ds all : List DefnId} (hcalls : p.CallsAmong ds all) {fuel : Nat} {u : Unit}
    (hf : p.Ranked f all) (h : settle ds fuel (p.noted f) = .ok u p') :
    ∃ g, p' = p.noted g ∧ p.Ranked g all := by
  induction fuel generalizing f with
  | zero => exact ⟨f, (pure_ok_iff.mp h).2, hf⟩
  | succ fuel ih =>
    obtain ⟨v, _, hw, h⟩ := bind_ok_iff.mp h
    obtain ⟨g, rfl, hg⟩ := withdraw_ranked hcalls hf hw
    cases v with
    | false => exact ⟨g, (pure_ok_iff.mp h).2, hg⟩
    | true => exact ih hg h

theorem returnAnalysisOf_ranked {before after : List Component}
    (hcalls : p.CallsBack (before ++ after)) (hbefore : p.Ranked f (allMembers before))
    {u : Unit} (h : returnAnalysisOf after (p.noted f) = .ok u p') :
    ∃ g, p' = p.noted g ∧ p.Ranked g (allMembers (before ++ after)) := by
  induction after generalizing before f with
  | nil => exact ⟨f, (pure_ok_iff.mp h).2, by simpa using hbefore⟩
  | cons c after ih =>
    obtain ⟨_, _, hsuppose, h⟩ := bind_ok_iff.mp h
    obtain ⟨_, _, hsettle, h⟩ := bind_ok_iff.mp h
    obtain ⟨f1, rfl, hsame, hsupposed⟩ := supposeAll_noted hsuppose
    have hranked : p.Ranked f1 (allMembers (before ++ [c])) := by
      intro b hb hfb
      rw [allMembers, flatMap_append, mem_append] at hb
      obtain hb | hb := hb
      · have hnot : .block b ∉ c.members := fun hbc => by
          rw [hsupposed _ hbc] at hfb
          cases hfb
        rw [hsame _ hnot] at hfb
        exact hbefore b hb hfb
      · rw [hsupposed _ (by simpa using hb)] at hfb
        cases hfb
    obtain ⟨f2, rfl, hf2⟩ := settle_ranked (hcalls before c after rfl) hranked hsettle
    rw [append_cons] at hcalls ⊢
    exact ih hcalls hf2 h

theorem returnAnalysis_ranked (hcalls : p.CallsBack p.components.toList) {u : Unit}
    (h : returnAnalysis p = .ok u p') :
    ∃ g, p' = p.noted g ∧ p.Ranked g (allMembers p.components.toList) := by
  obtain ⟨f, hf⟩ := p.exists_noted
  obtain ⟨q, q', hget, h⟩ := bind_ok_iff.mp h
  obtain ⟨hq, hq'⟩ := get_ok_iff.mp hget
  rw [hq, hq', ← hf] at h
  have hnil : p.Ranked f (allMembers []) := by simp [Program.Ranked, allMembers]
  rw [← nil_append p.components.toList] at hcalls ⊢
  exact returnAnalysisOf_ranked hcalls hnil h

end Edit

end MonadicIR
