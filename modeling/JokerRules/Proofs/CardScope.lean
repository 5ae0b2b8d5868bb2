import JokerRules.Condition.Guard
import JokerRules.Proofs.ContextTexts
import JokerRules.Proofs.EncodedFields

/-! Tests on cards. What a test uses of the event is what the expression of its card uses. -/

namespace JokerRules

open Text Tokens ContextUses

/-- Whether the event of a trigger has a field. -/
def Trigger.offers (t : Trigger) (field : String) : Bool :=
  if field = "other_card" then t.firesPerCard
  else if field ∈ ["scoring_hand", "scoring_name", "poker_hands"] then t.playsHand
  else if field = "full_hand" then t.playsHand || t.discardsHand
  else if field = "removed" then t = .cardDestroyed
  else false

namespace ConditionScope

section CardTests

variable {A : Use → Prop} {card : String}

theorem within_rankTest (hcard : Within A card) (raw : String) :
    ∀ test ∈ CardTest.rank? card raw, Within A test := by
  intro test htest
  simp only [CardTest.rank?] at htest
  split at htest
  · cases htest
    exact within_template [.hole _ hcard, .fixed _] rfl
  split at htest
  · cases htest
  · obtain ⟨r, -, rfl⟩ := Option.map_eq_some_iff.mp htest
    exact within_template [.hole _ hcard, .fixed _, .hole _ (within_toString_nat r.id)] rfl

theorem within_suitTest (hcard : Within A card) (raw : String) :
    ∀ test ∈ CardTest.suit? card raw, Within A test := by
  have hsuit : ∀ s : Suit, Within A (card ++ ":is_suit(" ++ quote s.name ++ ")") := fun s =>
    within_template [.hole _ hcard, .fixed _, .hole _ (within_quote s.name), .fixed _] rfl
  intro test htest
  simp only [CardTest.suit?] at htest
  split at htest
  · cases htest
    exact within_template
      [.fixed _, .hole _ (hsuit .hearts), .fixed _, .hole _ (hsuit .diamonds), .fixed _] rfl
  split at htest
  · cases htest
    exact within_template
      [.fixed _, .hole _ (hsuit .spades), .fixed _, .hole _ (hsuit .clubs), .fixed _] rfl
  · obtain ⟨s, -, rfl⟩ := Option.map_eq_some_iff.mp htest
    exact hsuit s

theorem within_enhancementTest (hcard : Within A card) (raw : String) :
    Within A (CardTest.enhancementTest card raw) := by
  unfold CardTest.enhancementTest
  split
  · exact within_template [.fixed _, .hole _ hcard, .fixed _] rfl
  split
  · exact within_template [.fixed _, .hole _ hcard, .fixed _] rfl
  · exact within_template
      [.fixed _, .hole _ hcard, .fixed _, .hole _ (within_quote _), .fixed _] rfl

theorem within_sealTest (hcard : Within A card) (raw : String) :
    Within A (CardTest.sealTest card raw) := by
  unfold CardTest.sealTest
  split
  · exact within_template [.hole _ hcard, .fixed _] rfl
  split
  · exact within_template [.hole _ hcard, .fixed _] rfl
  · exact within_template [.hole _ hcard, .fixed _, .hole _ (within_quote raw)] rfl

theorem within_editionTest (hcard : Within A card) (raw : String) :
    Within A (CardTest.editionTest card raw) := by
  unfold CardTest.editionTest
  split
  · exact within_template [.hole _ hcard, .fixed _] rfl
  split
  · exact within_template [.hole _ hcard, .fixed _] rfl
  · exact within_template [.fixed _, .hole _ hcard, .fixed _, .hole _ hcard, .fixed _,
      .hole _ (within_quote _), .fixed _] rfl

theorem within_filterTest (hcard : Within A card) (p : Params) :
    ∀ test ∈ CardTest.filter? card p, Within A test := by
  unfold CardTest.filter?
  split
  · exact within_suitTest hcard _
  · exact within_rankTest hcard _
  · rintro test ⟨⟩
    exact within_enhancementTest hcard _
  · rintro test ⟨⟩
    exact within_sealTest hcard _
  · simp

theorem within_countWhere {element area test : String} (helement : Within A element)
    (harea : Within A area) (htest : Within A test) :
    Within A (CardTest.countWhere element area test) :=
  within_template [.fixed _, .hole _ helement, .fixed _, .hole _ harea, .fixed _, .hole _ htest,
    .fixed _] rfl

end CardTests

end ConditionScope

end JokerRules
