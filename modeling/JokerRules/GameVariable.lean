import JokerRules.Keyed

/-!
The readable pieces of the game's state.
-/

namespace JokerRules

structure GameVariable where
  /-- The expression that reads the current value. -/
  template : String
  /-- The name shown to the author. -/
  label : String
deriving DecidableEq

abbrev Registry := Keyed GameVariable

namespace Registry

def register (r : Registry) (id template label : String) : Registry :=
  r.insert id ⟨template, label⟩

def empty : Registry := Keyed.empty

def ofTable (rows : List (String × String × String)) : Registry :=
  rows.foldl (fun r (row : String × String × String) => register r row.1 row.2.1 row.2.2) empty

/-- Identifiers, templates and labels of the game's own state. -/
def builtinTable : List (String × String × String) :=
  [("hands_remaining", "G.GAME.current_round.hands_left", "Hands Remaining"),
    ("discards_remaining", "G.GAME.current_round.discards_left", "Discards Remaining"),
    ("player_money", "(G.GAME.dollars or 0)", "Player Money"),
    ("ante", "G.GAME.round_resets.ante", "Ante"),
    ("round", "G.GAME.round", "Round"),
    ("joker_count", "#(G.jokers and G.jokers.cards or \x7b\x7d)", "Joker Count"),
    ("consumable_count", "#(G.consumeables and G.consumeables.cards or \x7b\x7d)",
      "Consumable Count"),
    ("deck_size", "#(G.playing_cards or \x7b\x7d)", "Deck Size"),
    ("cards_in_deck", "#(G.deck and G.deck.cards or \x7b\x7d)", "Cards In Deck"),
    ("hand_size", "G.hand.config.card_limit", "Hand Size"),
    ("cards_in_hand", "#(G.hand and G.hand.cards or \x7b\x7d)", "Cards In Hand"),
    ("hands_played", "G.GAME.current_round.hands_played", "Hands Played"),
    ("total_hands_played", "G.GAME.hands_played", "Total Hands Played"),
    ("discards_used", "G.GAME.current_round.discards_used", "Discards Used"),
    ("blind_chips", "G.GAME.blind.chips", "Blind Requirement"),
    ("current_chips", "G.GAME.chips", "Current Chips"),
    ("joker_slots", "G.jokers.config.card_limit", "Joker Slots"),
    ("skips", "G.GAME.skips", "Blinds Skipped"),
    ("tarots_used",
      "(G.GAME.consumeable_usage_total and G.GAME.consumeable_usage_total.tarot or 0)",
      "Tarots Used"),
    ("planets_used",
      "(G.GAME.consumeable_usage_total and G.GAME.consumeable_usage_total.planet or 0)",
      "Planets Used"),
    ("scoring_hand_size", "#(context.scoring_hand or \x7b\x7d)", "Scoring Hand Size")]

def builtin : Registry := ofTable builtinTable

end Registry

end JokerRules
