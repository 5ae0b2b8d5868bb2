import JokerRules.Text.Identifier
import JokerRules.Value

/-!
Effects as authored.
-/

namespace JokerRules

inductive EffectKind
  | addChips | addMult | applyXMult | applyXChips | applyExpMult | applyExpChips | addDollars
  | retrigger | showMessage | balance | swapChipsMult | savedFromDeath | destroyTriggeredCard
  | setDollars | editInterestCap | setSellValue | allowDebt
  | modifyInternalVariable
  | levelUpHand | editHands | editDiscards | editHandSize | drawCards
  | editJokerSlots | editConsumableSlots | editShopSlots
  | createJoker | destroyJoker | copyJoker | destroySelf
  | createConsumable | destroyConsumable | copyConsumable | createTag
  | addCardToDeck | copyTriggeredCard | editTriggeredCard | convertCardsSuit | convertCardsRank
  | permaBonus
  | editBlindSize | disableBossBlind | setAnte | modifyProbability
  | freeRerolls | shortcut | splashEffect | discountItems | reduceFlushStraight | combineSuits
  | combineRanks | showman
  /-- A kind outside the known ones; it does nothing. -/
  | unknown
deriving DecidableEq, Repr

namespace EffectKind

/-- The known kinds. -/
def all : List EffectKind :=
  [addChips, addMult, applyXMult, applyXChips, applyExpMult, applyExpChips, addDollars, retrigger,
    showMessage, balance, swapChipsMult, savedFromDeath, destroyTriggeredCard, setDollars,
    editInterestCap, setSellValue, allowDebt, modifyInternalVariable, levelUpHand, editHands,
    editDiscards, editHandSize, drawCards, editJokerSlots, editConsumableSlots, editShopSlots,
    createJoker, destroyJoker, copyJoker, destroySelf, createConsumable, destroyConsumable,
    copyConsumable, createTag, addCardToDeck, copyTriggeredCard, editTriggeredCard,
    convertCardsSuit, convertCardsRank, permaBonus, editBlindSize, disableBossBlind, setAnte,
    modifyProbability, freeRerolls, shortcut, splashEffect, discountItems, reduceFlushStraight,
    combineSuits, combineRanks, showman]

def id : EffectKind → String
  | addChips => "add_chips"
  | addMult => "add_mult"
  | applyXMult => "apply_x_mult"
  | applyXChips => "apply_x_chips"
  | applyExpMult => "apply_exp_mult"
  | applyExpChips => "apply_exp_chips"
  | addDollars => "add_dollars"
  | retrigger => "retrigger"
  | showMessage => "show_message"
  | balance => "balance"
  | swapChipsMult => "swap_chips_mult"
  | savedFromDeath => "saved_from_death"
  | destroyTriggeredCard => "destroy_triggered_card"
  | setDollars => "set_dollars"
  | editInterestCap => "edit_interest_cap"
  | setSellValue => "set_sell_value"
  | allowDebt => "allow_debt"
  | modifyInternalVariable => "modify_internal_variable"
  | levelUpHand => "level_up_hand"
  | editHands => "edit_hands"
  | editDiscards => "edit_discards"
  | editHandSize => "edit_hand_size"
  | drawCards => "draw_cards"
  | editJokerSlots => "edit_joker_slots"
  | editConsumableSlots => "edit_consumable_slots"
  | editShopSlots => "edit_shop_slots"
  | createJoker => "create_joker"
  | destroyJoker => "destroy_joker"
  | copyJoker => "copy_joker"
  | destroySelf => "destroy_self"
  | createConsumable => "create_consumable"
  | destroyConsumable => "destroy_consumable"
  | copyConsumable => "copy_consumable"
  | createTag => "create_tag"
  | addCardToDeck => "add_card_to_deck"
  | copyTriggeredCard => "copy_triggered_card"
  | editTriggeredCard => "edit_triggered_card"
  | convertCardsSuit => "convert_cards_suit"
  | convertCardsRank => "convert_cards_rank"
  | permaBonus => "perma_bonus"
  | editBlindSize => "edit_blind_size"
  | disableBossBlind => "disable_boss_blind"
  | setAnte => "set_ante"
  | modifyProbability => "modify_probability"
  | freeRerolls => "free_rerolls"
  | shortcut => "shortcut"
  | splashEffect => "splash_effect"
  | discountItems => "discount_items"
  | reduceFlushStraight => "reduce_flush_straight"
  | combineSuits => "combine_suits"
  | combineRanks => "combine_ranks"
  | showman => "showman"
  | unknown => "unknown"

def ofId (s : String) : EffectKind :=
  (all.find? (·.id == s)).getD unknown

theorem ofId_id (k : EffectKind) : ofId k.id = k := by
  cases k <;> decide

def repeatsCard (k : EffectKind) : Bool :=
  k == retrigger

/-- Whether the effect changes the game's table of odds. -/
def changesOdds (k : EffectKind) : Bool :=
  k == modifyProbability

/-- Whether the effect writes one of the item's own variables. -/
def writesVariable (k : EffectKind) : Bool :=
  k == modifyInternalVariable

/-- Whether the effect has a meaning only while the item is owned. -/
def onlyPassive : EffectKind → Bool
  | freeRerolls | shortcut | splashEffect | discountItems | reduceFlushStraight | combineSuits
  | combineRanks | showman => true
  | _ => false

end EffectKind

structure Effect where
  id : String
  kind : EffectKind
  params : Params := {}
  message : Option String := none
deriving DecidableEq

namespace Effect

/-- The authored status message, unless it is blank. -/
def ownMessage? (e : Effect) : Option String :=
  e.message.bind Text.nonblank?

/-- The slot of the variable that the effect writes. -/
def target? (e : Effect) : Option String :=
  if e.kind.writesVariable then
    ((e.params.text? "variable_name").map Text.identifier).filter (· ≠ "")
  else none

end Effect

end JokerRules
