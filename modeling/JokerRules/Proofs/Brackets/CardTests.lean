import JokerRules.Condition.Guard
import JokerRules.Proofs.Brackets.Values

/-! Tests on cards. A test is an operand, whatever its parameters say. -/

namespace JokerRules.Brackets

open Text

section CardTests

variable {card : String}

theorem operand_rankTest (hcard : Operand card) (raw : String) :
    ∀ test ∈ CardTest.rank? card raw, Operand test := by
  intro test htest
  simp only [CardTest.rank?] at htest
  split at htest
  · cases htest
    exact operand_joined [.operand _ hcard, .fixed _] rfl
  split at htest
  · simp at htest
  · obtain ⟨r, -, rfl⟩ := Option.map_eq_some_iff.mp htest
    exact operand_joined
      [.operand _ hcard, .fixed _, .operand _ (operand_toString_nat r.id)] rfl

theorem operand_suitTest (hcard : Operand card) (raw : String) :
    ∀ test ∈ CardTest.suit? card raw, Operand test := by
  have hsuit : ∀ s : Suit, Operand (card ++ ":is_suit(" ++ quote s.name ++ ")") := fun s =>
    operand_joined [.operand _ hcard, .fixed _, .enclosed _ (neutral_quote s.name), .fixed _] rfl
  intro test htest
  simp only [CardTest.suit?] at htest
  split at htest
  · cases htest
    exact operand_joined [.fixed _, .enclosed _ (hsuit .hearts).neutral, .fixed _,
      .enclosed _ (hsuit .diamonds).neutral, .fixed _] rfl
  split at htest
  · cases htest
    exact operand_joined [.fixed _, .enclosed _ (hsuit .spades).neutral, .fixed _,
      .enclosed _ (hsuit .clubs).neutral, .fixed _] rfl
  · obtain ⟨s, -, rfl⟩ := Option.map_eq_some_iff.mp htest
    exact hsuit s

theorem operand_enhancementTest (hcard : Neutral card) (raw : String) :
    Operand (CardTest.enhancementTest card raw) := by
  unfold CardTest.enhancementTest
  split
  · exact operand_joined [.fixed _, .enclosed _ hcard, .fixed _] rfl
  split
  · exact operand_joined [.fixed _, .enclosed _ hcard, .fixed _] rfl
  · exact operand_joined
      [.fixed _, .enclosed _ hcard, .fixed _, .enclosed _ (neutral_quote _), .fixed _] rfl

theorem operand_sealTest (hcard : Operand card) (raw : String) :
    Operand (CardTest.sealTest card raw) := by
  unfold CardTest.sealTest
  split
  · exact operand_joined [.operand _ hcard, .fixed _] rfl
  split
  · exact operand_joined [.operand _ hcard, .fixed _] rfl
  · exact operand_joined [.operand _ hcard, .fixed _, .operand _ (operand_quote raw)] rfl

theorem operand_editionTest (hcard : Operand card) (raw : String) :
    Operand (CardTest.editionTest card raw) := by
  have hinner := hcard.neutral
  unfold CardTest.editionTest
  split
  · exact operand_joined [.operand _ hcard, .fixed _] rfl
  split
  · exact operand_joined [.operand _ hcard, .fixed _] rfl
  · exact operand_joined [.fixed _, .enclosed _ hinner, .fixed _, .enclosed _ hinner, .fixed _,
      .enclosed _ (neutral_quote _), .fixed _] rfl

theorem operand_filterTest (hcard : Operand card) (p : Params) :
    ∀ test ∈ CardTest.filter? card p, Operand test := by
  unfold CardTest.filter?
  split
  · exact operand_suitTest hcard _
  · exact operand_rankTest hcard _
  · rintro test ⟨⟩
    exact operand_enhancementTest hcard.neutral _
  · rintro test ⟨⟩
    exact operand_sealTest hcard _
  · simp

/-- The test is made inside the brackets of a function. -/
theorem operand_countWhere {element area test : String} (helement : Neutral element)
    (harea : Neutral area) (htest : Neutral test) :
    Operand (CardTest.countWhere element area test) :=
  operand_joined [.fixed _, .enclosed _ helement, .fixed _, .enclosed _ harea, .fixed _,
    .enclosed _ htest, .fixed _] rfl

theorem solid_cardsInScope (p : Params) (t : Trigger) :
    ∀ area ∈ CardTest.cardsInScope? p t, Solid area := by
  intro area harea
  simp only [CardTest.cardsInScope?] at harea
  split at harea
  · cases harea
    exact solid_fixed rfl
  split at harea
  · cases harea
    split <;> exact solid_fixed rfl
  split at harea
  · cases harea
    exact solid_fixed rfl
  · simp at harea

theorem neutral_cardsInScope (p : Params) (t : Trigger) :
    ∀ area ∈ CardTest.cardsInScope? p t, Neutral area :=
  fun area harea => (solid_cardsInScope p t area harea).plain.neutral

end CardTests

end JokerRules.Brackets
