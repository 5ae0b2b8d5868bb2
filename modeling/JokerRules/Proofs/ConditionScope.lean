import JokerRules.Proofs.SubjectScope

/-! Conditions and the event of their trigger. A condition reads the card that fires the rule only
where one does, the hand only where one is played or discarded, and the removed cards only where
cards are destroyed: what the trigger does not offer, its conditions do not touch. -/

namespace JokerRules

open Text Tokens ContextUses

namespace ConditionScope

variable {t : Trigger}

/-- Only a reading of the game's state can use the event. -/
theorem within_ofOperand {A : Use → Prop} {value : Value} (registry : Registry)
    (h : ∀ raw, value = .str raw → ∀ id multiplier offset,
      Encoding.parse raw ≠ .ok (.gameState id multiplier offset)) :
    Within A (Amount.ofOperand value registry).expr := by
  unfold Amount.ofOperand
  split
  · next raw =>
    split
    · split
      · next id multiplier offset hparse => exact absurd hparse (h raw rfl id multiplier offset)
      · next low high _ => exact within_drawn _ (within_number low) (within_number high)
      · exact within_fixed rfl
    · split
      · next x _ => exact within_number x
      · split
        · exact within_fixed rfl
        · next hne => exact within_read hne (isNameChar_identifier raw)
  · exact within_literal value

theorem inScope_subjectExpr {s : Subject} (hs : SubjectInScope t s) {p : Params} (registry : Registry)
    (h : ∀ raw, p.get? "value" = some (.str raw) → ∀ id multiplier offset,
      Encoding.parse raw ≠ .ok (.gameState id multiplier offset)) :
    InScope t (s.expr p registry) := by
  cases s with
  | test expr => exact hs
  | quantity expr fallback =>
    have hsign : ∀ c : Comparison, InScope t c.sign := by
      intro c
      cases c <;> exact within_fixed rfl
    have hvalue : InScope t
        (Amount.ofOperand ((p.get? "value").getD (.int fallback)) registry).expr := by
      refine within_ofOperand registry fun raw hraw => h raw ?_
      cases hget : p.get? "value" with
      | none =>
        rw [hget] at hraw
        cases hraw
      | some value =>
        rw [hget] at hraw
        exact congrArg some hraw
    have hexpr : InScope t expr := hs
    exact within_template
      [.hole _ hexpr, .fixed _, .hole _ (hsign _), .fixed _, .hole _ hvalue] rfl

theorem inScope_conditionExpr {c : Condition} {registry : Registry}
    (h : ∀ raw, c.params.get? "value" = some (.str raw) → ∀ id multiplier offset,
      Encoding.parse raw ≠ .ok (.gameState id multiplier offset)) :
    ∀ expr ∈ c.expr? t registry, InScope t expr := by
  intro expr hexpr
  obtain ⟨s, hs, rfl⟩ := Option.map_eq_some_iff.mp hexpr
  have hinner := inScope_subjectExpr (inScope_subject c.kind c.params s hs) registry h
  dsimp only
  split
  · exact within_template [.fixed _, .hole _ hinner, .fixed _] rfl
  · exact hinner

/-- Whatever its parameters say, a condition whose value is not a reading of the game's state uses
of the event only the fields that its trigger offers: the card of a single card, the scored cards
and the names of a played hand, all cards of a played or discarded hand, and the cards that were
destroyed. -/
theorem condition_reads_what_trigger_offers {c : Condition} {t : Trigger} {registry : Registry}
    {expr : String} (hexpr : c.expr? t registry = some expr)
    (hvalue : ∀ raw, c.params.get? "value" = some (.str raw) → ∀ id multiplier offset,
      Encoding.parse raw ≠ .ok (.gameState id multiplier offset)) :
    (some "other_card" ∈ uses expr → t.firesPerCard = true) ∧
      (∀ field ∈ ["scoring_hand", "scoring_name", "poker_hands"],
        some field ∈ uses expr → t.playsHand = true) ∧
      (some "full_hand" ∈ uses expr → t.playsHand = true ∨ t.discardsHand = true) ∧
      (some "removed" ∈ uses expr → t = .cardDestroyed) ∧
      ∀ use ∈ uses expr, ∃ field ∈ ["other_card", "scoring_hand", "scoring_name", "poker_hands",
        "full_hand", "removed"], use = some field := by
  have hoffers := (inScope_conditionExpr hvalue expr hexpr).allowed
  refine ⟨hoffers (some "other_card"), fun field hfield h => ?_, fun h => ?_, fun h => ?_,
    fun use huse => ?_⟩
  · have hfield : t.offers field = t.playsHand := by
      simp only [List.mem_cons, List.not_mem_nil, or_false] at hfield
      rcases hfield with rfl | rfl | rfl <;> rfl
    rw [← hfield]
    exact hoffers _ h
  · exact Bool.or_eq_true_iff.mp (hoffers _ h)
  · exact of_decide_eq_true (hoffers _ h)
  · obtain ⟨field, rfl, hfield⟩ := (Option.any_eq_true _ _).mp (hoffers use huse)
    refine ⟨field, ?_, rfl⟩
    by_contra hother
    simp only [List.mem_cons, List.not_mem_nil, or_false, not_or] at hother
    simp [Trigger.offers, hother] at hfield

def misleadingSeal : Condition where
  id := "seal"
  kind := .cardSeal
  params := .ofList [("seal", .str "context.removed")]

/-- A text that names another field stays a text. -/
theorem misleadingSeal_reads_card :
    misleadingSeal.expr? .cardDiscarded Registry.builtin =
        some "context.other_card.seal == \"context.removed\"" ∧
      uses "context.other_card.seal == \"context.removed\"" = [some "other_card"] ∧
      Trigger.cardDiscarded.firesPerCard = true := by
  have hexpr : misleadingSeal.expr? .cardDiscarded Registry.builtin =
      some "context.other_card.seal == \"context.removed\"" := by decide +kernel
  have huses : uses "context.other_card.seal == \"context.removed\"" = [some "other_card"] := by
    decide +kernel
  have hvalue : misleadingSeal.params.get? "value" = none := by decide +kernel
  obtain ⟨hcard, -⟩ := condition_reads_what_trigger_offers hexpr (by simp [hvalue])
  exact ⟨hexpr, huses, hcard (by simp [huses])⟩

end ConditionScope

end JokerRules
