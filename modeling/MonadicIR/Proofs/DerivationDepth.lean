import MonadicIR.Proofs.PipelineRealms

namespace MonadicIR

/-- Definitions may mention what they like, and copies are made as the options allow. -/
def Charter.freely (o : Options) : Charter where
  options := o
  free := True
  wildcard := True
  below _ := ∅
  allocates _ := False
  flat := False
  below_of_flat h := h.elim
  not_allocates_of_flat h := h.elim
  legal _ _ h := h
  of_free _ := ⟨trivial, id, id, fun _ => id⟩

namespace Program

def Original (p : Program) : Prop :=
  (∀ block ∈ p.blocks, block.origin = .source) ∧ ∀ closure ∈ p.closures, closure.origin = .source

instance (p : Program) : Decidable p.Original :=
  inferInstanceAs (Decidable ((∀ block ∈ p.blocks, block.origin = .source) ∧
    ∀ closure ∈ p.closures, closure.origin = .source))

theorem Original.outline {p : Program} (h : p.Original) {d : DefnId} {x : Outline}
    (hx : p.outline? d = some x) : x.origin = .source := by
  cases d <;> obtain ⟨y, hy, rfl⟩ := Option.map_eq_some_iff.mp hx
  · exact h.1 y (Array.mem_of_getElem? hy)
  · exact h.2 y (Array.mem_of_getElem? hy)
  · rfl

end Program

namespace Pass

/-- While a program without copies is optimised, its definitions are at most as deep as the limit
says, but for blocks that hand their results on. -/
theorem throughout_depth_le (o : Options) (fuel : Nat) {p : Program} (horiginal : p.Original) :
    Throughout (fun q => ∀ d x, q.outline? d = some x → x.origin.depth ≤ o.deriveDepth ∨
        o.inlining = true ∧ x.origin.handsOff = true ∧ ∃ b, d = .block b)
      (optimise o fuel) { program := p } := by
  let r := Charter.freely o
  -- No realms are asked for, so it does not matter which ones there are.
  let w : Realms := ⟨fun _ => none⟩
  have hstart : r.Stands w p := .free trivial fun d x hx => by
    rw [horiginal.outline hx]
    exact .inl (Nat.zero_le _)
  have hkeeps : r.contract.Stays w (optimise o fuel) := by
    rw [optimise_eq]
    refine .bind (.peek _) fun w1 _ _ _ => .bind Charter.keeps_shake fun w2 _ _ _ => ?_
    exact (r.keepsPasses (fun _ => .inr trivial) fuel).optimiseShaken w2
  refine (hkeeps { program := p } hstart).throughout.mono fun q hq => ?_
  obtain ⟨w', hq⟩ := hq
  cases hq with
  | free _ hallowed => exact hallowed
  | bound hq => exact absurd trivial hq.bound

/-- Two blocks that each enter what the next one returns, which is one of two copies. -/
def relay : Program where
  temps := ⟨.replicate 6 none⟩
  blocks := #[
    { params := [⟨1⟩]
      code := .bind [⟨2⟩] (.call ⟨⟨1⟩, [.temp ⟨1⟩]⟩) (.done (.enter (.temp ⟨2⟩) [.word 7])) },
    { params := [⟨3⟩]
      code := .bind [⟨4⟩] (.call ⟨⟨2⟩, [.temp ⟨3⟩]⟩) (.done (.enter (.temp ⟨4⟩) [.temp ⟨3⟩])) },
    { params := [⟨5⟩]
      code := .branch (.temp ⟨5⟩) ⟨⟨3⟩, [.temp ⟨5⟩]⟩ ⟨⟨3⟩, [.word 7]⟩ },
    { params := [.wildcard]
      code := .done (.closure ⟨0⟩ []) }]
  closures := #[
    { stored := []
      params := [.wildcard]
      tail := .closure ⟨0⟩ [] }]
  entrypoints := [.block ⟨0⟩]

def shallow : Options where
  maxPasses := 1
  flow := false
  merging := false
  deriveDepth := 1

theorem exists_deep_relay : ∃ stats s x, optimise shallow 9 { program := relay } = .ok stats s ∧
    s.program.outline? (.block ⟨7⟩) = some x ∧ x.origin = .entering 1 2 := by
  obtain ⟨stats, s, hrun, htest⟩ := exists_ok (r := optimise shallow 9 { program := relay })
    (fun _ s => (s.program.outline? (.block ⟨7⟩)).any fun x : Outline =>
      decide (x.origin = .entering 1 2))
    (by decide +kernel)
  simp only [Option.any_eq_true, decide_eq_true_eq] at htest
  obtain ⟨x, hx, horigin⟩ := htest
  exact ⟨stats, s, x, hrun, hx, horigin⟩

theorem throughout_depth_le_relay :
    Throughout (fun q => ∀ d x, q.outline? d = some x → x.origin.depth ≤ 1 ∨
        shallow.inlining = true ∧ x.origin.handsOff = true ∧ ∃ b, d = .block b)
      (optimise shallow 9) { program := relay } ∧
    ∃ stats s x, optimise shallow 9 { program := relay } = .ok stats s ∧
      s.program.outline? (.block ⟨7⟩) = some x ∧ x.origin = .entering 1 2 :=
  ⟨throughout_depth_le shallow 9 (by decide), exists_deep_relay⟩

/-- The first block is looked at last, when the second one already branches to a copy. -/
theorem not_throughout_depth_le_relay : relay.check = .ok () ∧ relay.Original ∧
    ¬Throughout (fun q => ∀ d x, q.outline? d = some x → x.origin.depth ≤ shallow.deriveDepth)
      (optimise shallow 9) { program := relay } := by
  refine ⟨by decide +kernel, by decide, fun h => ?_⟩
  obtain ⟨stats, s, x, hrun, hx, horigin⟩ := exists_deep_relay
  have hend := h.atEnd
  rw [hrun] at hend
  have hdepth := hend _ x hx
  rw [horigin] at hdepth
  exact absurd hdepth (by decide)

end Pass

end MonadicIR
