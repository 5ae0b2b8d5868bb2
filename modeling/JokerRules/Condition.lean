import JokerRules.Value

/-!
Conditions as authored: predicates joined into groups.
-/

namespace JokerRules

inductive Comparison
  | eq | ne | gt | ge | lt | le
deriving DecidableEq, Repr

namespace Comparison

/-- Reads a comparison by word or by sign. -/
def ofId? (s : String) : Option Comparison :=
  if s ∈ ["equals", "eq", "=="] then some eq
  else if s ∈ ["not_equals", "neq", "!=", "~="] then some ne
  else if s ∈ ["greater_than", "gt", ">"] then some gt
  else if s ∈ ["greater_equals", "gte", ">="] then some ge
  else if s ∈ ["less_than", "lt", "<"] then some lt
  else if s ∈ ["less_equals", "lte", "<="] then some le
  else none

def sign : Comparison → String
  | eq => "==" | ne => "~=" | gt => ">" | ge => ">=" | lt => "<" | le => "<="

end Comparison

/-- How a term joins the one after it. -/
inductive Joiner
  | and | or
deriving DecidableEq, Repr, Inhabited

namespace Joiner

def word : Joiner → String
  | and => "and" | or => "or"

def ofWord? (s : String) : Option Joiner :=
  if s = "and" then some and else if s = "or" then some or else none

theorem ofWord?_word (j : Joiner) : ofWord? j.word = some j := by
  cases j <;> decide

end Joiner

inductive ConditionKind
  | handType | cardCount | suitCount | rankCount | enhancementCount | sealCount
  | pokerHandBeenPlayed | discardedCardCount | glassCardDestroyed
  | cardRank | cardSuit | cardEnhancement | cardSeal | cardEdition | cardIndex
  | playerMoney | remainingHands | remainingDiscards | firstPlayedHand | firstDiscardedHand
  | handSize | handLevel | deckSize | deckCount | internalVariable
  | jokerCount | specificJoker | jokerPosition | consumableCount | voucherRedeemed
  | blindType | bossBlindActive | anteLevel | blindRequirements | systemDate
  /-- A kind outside the known ones; it tests nothing. -/
  | unknown
deriving DecidableEq, Repr

namespace ConditionKind

/-- The known kinds. -/
def all : List ConditionKind :=
  [handType, cardCount, suitCount, rankCount, enhancementCount, sealCount, pokerHandBeenPlayed,
    discardedCardCount, glassCardDestroyed, cardRank, cardSuit, cardEnhancement, cardSeal,
    cardEdition, cardIndex, playerMoney, remainingHands, remainingDiscards, firstPlayedHand,
    firstDiscardedHand, handSize, handLevel, deckSize, deckCount, internalVariable, jokerCount,
    specificJoker, jokerPosition, consumableCount, voucherRedeemed, blindType, bossBlindActive,
    anteLevel, blindRequirements, systemDate]

def id : ConditionKind → String
  | handType => "hand_type"
  | cardCount => "card_count"
  | suitCount => "suit_count"
  | rankCount => "rank_count"
  | enhancementCount => "enhancement_count"
  | sealCount => "seal_count"
  | pokerHandBeenPlayed => "poker_hand_been_played"
  | discardedCardCount => "discarded_card_count"
  | glassCardDestroyed => "glass_card_destroyed"
  | cardRank => "card_rank"
  | cardSuit => "card_suit"
  | cardEnhancement => "card_enhancement"
  | cardSeal => "card_seal"
  | cardEdition => "card_edition"
  | cardIndex => "card_index"
  | playerMoney => "player_money"
  | remainingHands => "remaining_hands"
  | remainingDiscards => "remaining_discards"
  | firstPlayedHand => "first_played_hand"
  | firstDiscardedHand => "first_discarded_hand"
  | handSize => "hand_size"
  | handLevel => "hand_level"
  | deckSize => "deck_size"
  | deckCount => "deck_count"
  | internalVariable => "internal_variable"
  | jokerCount => "joker_count"
  | specificJoker => "specific_joker"
  | jokerPosition => "joker_position"
  | consumableCount => "consumable_count"
  | voucherRedeemed => "voucher_redeemed"
  | blindType => "blind_type"
  | bossBlindActive => "boss_blind_active"
  | anteLevel => "ante_level"
  | blindRequirements => "blind_requirements"
  | systemDate => "system_date"
  | unknown => "unknown"

def ofId (s : String) : ConditionKind :=
  (all.find? (·.id == s)).getD unknown

theorem ofId_id (k : ConditionKind) : ofId k.id = k := by
  cases k <;> decide

end ConditionKind

structure Condition where
  id : String
  kind : ConditionKind
  params : Params := {}
  negate : Bool := false
  next : Joiner := .and
deriving DecidableEq

structure ConditionGroup where
  conditions : List Condition := []
  next : Joiner := .and
deriving DecidableEq

end JokerRules
