import JokerRules.Condition
import JokerRules.Condition.CardTest
import JokerRules.Item

/-!
What a condition is about: either a test that holds or not, or a quantity that is compared with the
condition's value. A condition without a subject under its trigger is dropped.
-/

namespace JokerRules

inductive Subject
  | test (expr : String)
  /-- `fallback` is compared with if the condition has no value. -/
  | quantity (expr : String) (fallback : Int64)

namespace Subject

/-- The playing card that fires the trigger. -/
def firingCard? (t : Trigger) : Option String :=
  if t.firesPerCard then some "context.other_card" else none

/-- The hand named by the parameters, or else the one being played. -/
def hand? (p : Params) (t : Trigger) : Option String :=
  match p.text? "hand_type" with
  | some hand => some (Text.quote hand)
  | none => if t.playsHand then some "context.scoring_name" else none

def handType? (p : Params) (t : Trigger) : Option Subject :=
  (p.text? "hand_type").bind fun raw =>
    let hand := Text.quote raw
    if t.playsHand then
      some (.test (if p.textOr "scope" "scoring" = "all" then
          "next(context.poker_hands[" ++ hand ++ "])"
        else "context.scoring_name == " ++ hand))
    else if t = .handDiscarded then
      some (.test ("G.FUNCS.get_poker_hand_info(context.full_hand) == " ++ hand))
    else none

/-- The number of cards of the hand area that pass a test. -/
def matching? (p : Params) (t : Trigger) (filter : Option String) : Option Subject :=
  (CardTest.cardsInScope? p t).bind fun area =>
    filter.map fun f => .quantity (CardTest.countWhere "playing_card" area f) 1

/-- Whether a hand was played before. The hand being scored is itself counted already. -/
def handPlayedBefore? (p : Params) (t : Trigger) : Option Subject :=
  (hand? p t).map fun hand =>
    let count := if p.textOr "scope" "round" = "run" then "played" else "played_this_round"
    let threshold := if (p.text? "hand_type").isNone then "1" else "0"
    .test ("G.GAME.hands[" ++ hand ++ "]." ++ count ++ " > " ++ threshold)

def glassDestroyed : String :=
  "(function() for _, removed_card in ipairs(context.removed or \x7b\x7d) do " ++
    "if SMODS.has_enhancement(removed_card, \"m_glass\") then return true end end " ++
    "return false end)()"

/-- The authored position: a number without its fraction, or a word. -/
def position? (p : Params) : Option String :=
  (p.number? "position").map fun x => x.truncate.literal

def cardIndex? (p : Params) (t : Trigger) : Option Subject :=
  (firingCard? t).map fun card =>
    let area := match t with
      | .cardScored => "context.scoring_hand"
      | .cardDiscarded => "context.full_hand"
      | _ => "G.hand.cards"
    let place := match position? p with
      | some n => n
      | none => if p.textOr "position" "first" = "last" then "#" ++ area else "1"
    .test (card ++ " == " ++ area ++ "[" ++ place ++ "]")

def deckCount (p : Params) : Subject :=
  match CardTest.filter? "playing_card" p with
  | some filter => .quantity (CardTest.countWhere "playing_card" "G.playing_cards" filter) 1
  | none => .quantity "#G.playing_cards" 1

def internalVariable? (p : Params) : Option Subject :=
  (p.text? "variable_name").bind fun raw =>
    if Text.identifier raw = "" then none
    else some (.quantity (Slot.read (Text.identifier raw)) 0)

def blindType? (p : Params) : Option Subject :=
  (p.text? "blind_type").bind fun raw =>
    let is (name : String) := some (.test ("G.GAME.blind:get_type() == " ++ Text.quote name))
    let choice := Text.lowerAscii raw
    if choice = "small" then is "Small"
    else if choice = "big" then is "Big"
    else if choice = "boss" then is "Boss"
    else none

/-- A field of the local clock. -/
def systemDate? (p : Params) : Option Subject :=
  let clock (format : String) :=
    some (.quantity ("tonumber(os.date(" ++ Text.quote format ++ "))") 1)
  let part := p.textOr "date_part" "day"
  if part = "day" then clock "%d"
  else if part = "month" then clock "%m"
  else if part = "year" then clock "%Y"
  else if part = "weekday" then clock "%w"
  else if part = "hour" then clock "%H"
  else none

/-- The text under a key, unless it asks for anything at all. -/
def choice? (p : Params) (key : String) : Option String :=
  (p.text? key).filter (· ≠ "any")

def rarityLiteral (raw : String) : String :=
  if raw = "common" then "1"
  else if raw = "uncommon" then "2"
  else if raw = "rare" then "3"
  else if raw = "legendary" then "4"
  else Text.quote raw

def jokerCount (p : Params) : Subject :=
  match choice? p "rarity" with
  | some raw =>
    .quantity (CardTest.countWhere "joker" "G.jokers.cards"
      ("joker.config.center.rarity == " ++ rarityLiteral raw)) 1
  | none => .quantity "#G.jokers.cards" 1

def consumableCount (p : Params) : Subject :=
  match choice? p "consumable_type" with
  | some set =>
    .quantity (CardTest.countWhere "consumable" "G.consumeables.cards"
      ("consumable.ability.set == " ++ Text.quote set)) 1
  | none => .quantity "#G.consumeables.cards" 1

def jokerPosition? (p : Params) : Option Subject :=
  let stands (place : String) := some (.test ("G.jokers.cards[" ++ place ++ "] == card"))
  match position? p with
  | some n => stands n
  | none =>
    let word := p.textOr "position" "first"
    if word = "last" then stands "#G.jokers.cards"
    else if word = "first" then stands "1"
    else none

end Subject

/-- The subject of a condition under a trigger. -/
def ConditionKind.subject? (kind : ConditionKind) (p : Params) (t : Trigger) : Option Subject :=
  match kind with
  | handType => Subject.handType? p t
  | cardCount => (CardTest.cardsInScope? p t).map fun area => .quantity ("#" ++ area) 5
  | suitCount =>
    (p.text? "suit").bind fun s => Subject.matching? p t (CardTest.suit? "playing_card" s)
  | rankCount =>
    (p.text? "rank").bind fun r => Subject.matching? p t (CardTest.rank? "playing_card" r)
  | enhancementCount =>
    let test := CardTest.enhancementTest "playing_card" (p.textOr "enhancement" "any")
    Subject.matching? p t (some test)
  | sealCount =>
    let test := CardTest.sealTest "playing_card" (p.textOr "seal" "any")
    Subject.matching? p t (some test)
  | pokerHandBeenPlayed => Subject.handPlayedBefore? p t
  | discardedCardCount =>
    if t.discardsHand then some (.quantity "#context.full_hand" 5) else none
  | glassCardDestroyed => if t = .cardDestroyed then some (.test Subject.glassDestroyed) else none
  | cardRank =>
    (Subject.firingCard? t).bind fun card =>
      (p.text? "rank").bind fun r => (CardTest.rank? card r).map .test
  | cardSuit =>
    (Subject.firingCard? t).bind fun card =>
      (p.text? "suit").bind fun s => (CardTest.suit? card s).map .test
  | cardEnhancement =>
    (Subject.firingCard? t).map fun card =>
      .test (CardTest.enhancementTest card (p.textOr "enhancement" "any"))
  | cardSeal =>
    (Subject.firingCard? t).map fun card => .test (CardTest.sealTest card (p.textOr "seal" "any"))
  | cardEdition =>
    (Subject.firingCard? t).map fun card =>
      .test (CardTest.editionTest card (p.textOr "edition" "any"))
  | cardIndex => Subject.cardIndex? p t
  | playerMoney => some (.quantity "(G.GAME.dollars + (G.GAME.dollar_buffer or 0))" 0)
  | remainingHands => some (.quantity "G.GAME.current_round.hands_left" 1)
  | remainingDiscards => some (.quantity "G.GAME.current_round.discards_left" 1)
  | firstPlayedHand => some (.test "G.GAME.current_round.hands_played == 0")
  | firstDiscardedHand => some (.test "G.GAME.current_round.discards_used == 0")
  | handSize => some (.quantity "G.hand.config.card_limit" 8)
  | handLevel =>
    (Subject.hand? p t).map fun hand => .quantity ("G.GAME.hands[" ++ hand ++ "].level") 1
  | deckSize =>
    some (.quantity (if p.textOr "scope" "full" = "remaining" then "#G.deck.cards"
      else "#G.playing_cards") 52)
  | deckCount => some (Subject.deckCount p)
  | internalVariable => Subject.internalVariable? p
  | blindType => Subject.blindType? p
  | bossBlindActive => some (.test "(G.GAME.blind.boss and not G.GAME.blind.disabled)")
  | anteLevel => some (.quantity "G.GAME.round_resets.ante" 1)
  | blindRequirements =>
    some (.quantity "(G.GAME.chips / math.max(G.GAME.blind.chips, 1) * 100)" 100)
  | systemDate => Subject.systemDate? p
  | jokerCount => some (Subject.jokerCount p)
  | specificJoker =>
    (p.text? "joker_key").map fun key =>
      .test ("next(SMODS.find_card(" ++ Text.quote (familyKey "j_" key) ++ "))")
  | jokerPosition => Subject.jokerPosition? p
  | consumableCount => some (Subject.consumableCount p)
  | voucherRedeemed =>
    (p.text? "voucher_key").map fun key =>
      .test ("G.GAME.used_vouchers[" ++ Text.quote (familyKey "v_" key) ++ "]")
  | unknown => none

end JokerRules
