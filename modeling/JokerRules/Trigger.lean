/-!
The events that fire a rule.
-/

namespace JokerRules

inductive Trigger
  | handPlayed | cardScored | cardHeldInHand | cardHeldInHandEndOfRound | beforeHandPlayed
  | afterHandPlayed | blindSelected | blindSkipped | bossDefeated | roundEnd | boosterOpened
  | boosterSkipped | consumableUsed | handDiscarded | cardDiscarded | shopReroll | shopExited
  | cardSold | sellingSelf | cardDestroyed
  /-- In force as long as the item is owned. -/
  | passive
deriving DecidableEq, Repr

namespace Trigger

def all : List Trigger :=
  [handPlayed, cardScored, cardHeldInHand, cardHeldInHandEndOfRound, beforeHandPlayed,
    afterHandPlayed, blindSelected, blindSkipped, bossDefeated, roundEnd, boosterOpened,
    boosterSkipped, consumableUsed, handDiscarded, cardDiscarded, shopReroll, shopExited,
    cardSold, sellingSelf, cardDestroyed, passive]

/-- The authored name of a trigger. -/
def id : Trigger → String
  | handPlayed => "hand_played"
  | cardScored => "card_scored"
  | cardHeldInHand => "card_held_in_hand"
  | cardHeldInHandEndOfRound => "card_held_in_hand_end_of_round"
  | beforeHandPlayed => "before_hand_played"
  | afterHandPlayed => "after_hand_played"
  | blindSelected => "blind_selected"
  | blindSkipped => "blind_skipped"
  | bossDefeated => "boss_defeated"
  | roundEnd => "round_end"
  | boosterOpened => "booster_opened"
  | boosterSkipped => "booster_skipped"
  | consumableUsed => "consumable_used"
  | handDiscarded => "hand_discarded"
  | cardDiscarded => "card_discarded"
  | shopReroll => "shop_reroll"
  | shopExited => "shop_exited"
  | cardSold => "card_sold"
  | sellingSelf => "selling_self"
  | cardDestroyed => "card_destroyed"
  | passive => "passive"

def ofId? (s : String) : Option Trigger :=
  all.find? (·.id == s)

theorem ofId?_id (t : Trigger) : ofId? t.id = some t := by
  cases t <;> decide

/-- The test on the game's context that selects the firing. On the triggers with a repetition pass,
`retrigger` selects that pass. -/
def eventTest? (t : Trigger) (retrigger : Bool) : Option String :=
  match t with
  | handPlayed => some "context.cardarea == G.jokers and context.joker_main"
  | cardScored =>
    some (if retrigger then "context.repetition and context.cardarea == G.play"
      else "context.individual and context.cardarea == G.play")
  | cardHeldInHand =>
    some (if retrigger then
        "context.repetition and context.cardarea == G.hand and " ++
          "(next(context.card_effects[1]) or #context.card_effects > 1)"
      else "context.individual and context.cardarea == G.hand and not context.end_of_round")
  | cardHeldInHandEndOfRound =>
    some "context.individual and context.cardarea == G.hand and context.end_of_round"
  | beforeHandPlayed => some "context.before and context.cardarea == G.jokers"
  | afterHandPlayed => some "context.after and context.cardarea == G.jokers"
  | blindSelected => some "context.setting_blind"
  | blindSkipped => some "context.skip_blind"
  | bossDefeated => some "context.end_of_round and context.main_eval and G.GAME.blind.boss"
  | roundEnd =>
    some "context.end_of_round and context.game_over == false and context.main_eval"
  | boosterOpened => some "context.open_booster"
  | boosterSkipped => some "context.skipping_booster"
  | consumableUsed => some "context.using_consumeable"
  | handDiscarded => some "context.pre_discard"
  | cardDiscarded => some "context.discard"
  | shopReroll => some "context.reroll_shop"
  | shopExited => some "context.ending_shop"
  | cardSold => some "context.selling_card"
  | sellingSelf => some "context.selling_self"
  | cardDestroyed => some "context.remove_playing_cards"
  | passive => none

/-- Whether a single playing card fires the trigger. -/
def firesPerCard : Trigger → Bool
  | cardScored | cardHeldInHand | cardHeldInHandEndOfRound | cardDiscarded => true
  | _ => false

/-- Whether the trigger has a repetition pass. -/
def hasRepetition : Trigger → Bool
  | cardScored | cardHeldInHand => true
  | _ => false

/-- Whether a played hand is in scope. -/
def playsHand : Trigger → Bool
  | handPlayed | cardScored | cardHeldInHand | beforeHandPlayed | afterHandPlayed => true
  | _ => false

/-- Whether a discarded hand is in scope. -/
def discardsHand : Trigger → Bool
  | handDiscarded | cardDiscarded => true
  | _ => false

end Trigger

end JokerRules
