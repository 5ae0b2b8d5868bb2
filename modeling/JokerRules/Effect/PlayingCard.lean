import JokerRules.Condition.CardTest
import JokerRules.Effect.Generator
import JokerRules.Effect.Modifier
import JokerRules.Operation

/-!
Effects that add playing cards and change them.
-/

namespace JokerRules.Effect

open Text

/-- The card that fires the rule. -/
def triggered : String := "context.other_card"

/-- The front of a new card; what is not authored is drawn. -/
def cardFront (suit : Option Suit) (rank : Option Rank) (seed : String) : String :=
  match suit, rank with
  | some suit, some rank => "G.P_CARDS[" ++ singleQuoted (suit.letter ++ "_" ++ rank.letter) ++ "]"
  | some suit, none =>
    "G.P_CARDS['" ++ suit.letter ++ "_' .. " ++ randomName (Rank.all.map (·.letter)) seed ++ "]"
  | none, some rank =>
    "G.P_CARDS[" ++ randomName (Suit.all.map (·.letter)) seed ++ " .. '_" ++ rank.letter ++ "']"
  | none, none => randomElement "G.P_CARDS" seed

def addCardToDeck (e : Effect) : Output :=
  let p := e.params
  let seed := e.seed "add_card"
  let suit := (p.text? "suit").bind Suit.parse?
  let rank := (p.text? "rank").bind Rank.parse?
  let front := cardFront suit rank seed
  let enhancement := p.text? "enhancement"
  let center := match enhancement with
    | some raw => if raw = "none" || raw = "random" then "G.P_CENTERS.c_base" else centre raw
    | none => "G.P_CENTERS.c_base"
  let enhance := if enhancement = some "random" then [setEnhancement "new_card" "random" seed]
    else []
  let sealing := ((p.text? "seal").filter (· ≠ "none")).toList.map fun raw =>
    setSeal "new_card" raw seed
  { body := .closure (unlines ([
      "local card_front = " ++ front,
      "local new_card = create_playing_card(\x7b front = card_front, center = " ++ center ++
        " \x7d, G.discard, true, false, nil, true)"] ++
      enhance ++ sealing ++ (e.setEdition? "new_card" "edition").toList ++ [
      event (unlines ["new_card:start_materialize()", "G.play:emplace(new_card)"]),
      event "G.deck.config.card_limit = G.deck.config.card_limit + 1",
      "draw_card(G.play, G.deck, 90, 'up')",
      "SMODS.calculate_context(\x7b playing_card_added = true, cards = \x7b new_card \x7d \x7d)"]))
    message := some "\"Added Card!\""
    colour := Colour.green }

def copiedOutput : Output where
  body := .closure (unlines [
    "G.playing_card = (G.playing_card and G.playing_card + 1) or 1",
    "local copied_card = copy_card(" ++ triggered ++ ", nil, nil, G.playing_card)",
    "copied_card:add_to_deck()",
    "G.deck.config.card_limit = G.deck.config.card_limit + 1",
    "table.insert(G.playing_cards, copied_card)",
    "G.hand:emplace(copied_card)",
    "copied_card.states.visible = nil",
    event "copied_card:start_materialize()"])
  message := some "localize('k_copied_ex')"
  colour := Colour.chips

def copyTriggeredCard : Generator Output := do
  unless (← Generator.trigger).firesPerCard do failure
  return copiedOutput

/-- What can be changed about the base of a card. -/
structure BaseTrait where
  /-- The parameter that names a value for all cards. -/
  key : String
  /-- The names of all values. -/
  names : List String
  /-- The name of an authored value. -/
  name? : String → Option String
  /-- The arguments that follow the card in a call. -/
  arguments : String → String
  /-- The local variable for a drawn value. -/
  stem : String
  seed : String
  notice : String

namespace BaseTrait

def suit : BaseTrait where
  key := "suit"
  names := Suit.all.map (·.name)
  name? raw := (Suit.parse? raw).map (·.name)
  arguments value := value
  stem := "target_suit"
  seed := "convert_suit"
  notice := "Suits Changed!"

def rank : BaseTrait where
  key := "rank"
  names := Rank.all.map (·.key)
  name? raw := (Rank.parse? raw).map (·.key)
  arguments value := "nil, " ++ value
  stem := "target_rank"
  seed := "convert_rank"
  notice := "Ranks Changed!"

/-- A value as an expression: drawn, or named. -/
def choice? (trait : BaseTrait) (raw seed : String) : Option String :=
  if raw = "random" then some (randomName trait.names seed)
  else (trait.name? raw).map quote

end BaseTrait

/-- The statements that make the authored changes to the triggering card. -/
def editCode (e : Effect) : List String :=
  let p := e.params
  let seed := e.seed "edit_card"
  let suit := (p.text? "new_suit").bind (BaseTrait.suit.choice? · seed)
  let rank := (p.text? "new_rank").bind (BaseTrait.rank.choice? · seed)
  let base := if suit.isSome || rank.isSome then
      ["assert(SMODS.change_base(" ++ triggered ++ ", " ++ suit.getD "nil" ++ ", " ++
        rank.getD "nil" ++ "))"]
    else []
  let enhance := (p.text? "new_enhancement").toList.map (setEnhancement triggered · seed)
  let sealing := (p.text? "new_seal").toList.map (setSeal triggered · seed)
  let edition := if p.text? "new_edition" = some "none" then
      [triggered ++ ":set_edition(nil, true)"]
    else (e.setEdition? triggered "new_edition").toList
  base ++ enhance ++ sealing ++ edition

def editedOutput (code : List String) : Output where
  body := .closure (unlines code)
  message := some "\"Card Modified!\""
  colour := Colour.blue

def editTriggeredCard (e : Effect) : Generator Output := do
  unless (← Generator.trigger).firesPerCard do failure
  let code := e.editCode
  if code.isEmpty then failure
  return editedOutput code

/-- Changes all cards of the hand area; `arguments` follow the card in the call. -/
def convertCode (e : Effect) (t : Trigger) (arguments : String) : Body :=
  let area := (CardTest.cardsInScope? e.params t).getD "G.hand.cards"
  .closure (unlines [
    s!"for _, playing_card in ipairs({area}) do",
    s!"    assert(SMODS.change_base(playing_card, {arguments}))",
    "end"])

def convertedOutput (e : Effect) (t : Trigger) (trait : BaseTrait) (value : String)
    (hoisted : List String) : Output :=
  { body := e.convertCode t (trait.arguments value)
    message := some (quote trait.notice)
    colour := Colour.purple
    hoisted }

/-- Draws the value that all cards of the hand area get. -/
def drawConversion (e : Effect) (t : Trigger) (trait : BaseTrait) : Naming Output := do
  let chosen ← fresh trait.stem
  let choice := randomName trait.names (e.seed trait.seed)
  return e.convertedOutput t trait chosen [s!"local {chosen} = {choice}"]

/-- Gives all cards of the hand area one value, which is drawn beforehand if none is authored. -/
def convertCards (e : Effect) (trait : BaseTrait) : Generator Output := do
  let t ← Generator.trigger
  let raw := e.params.textOr trait.key "random"
  if raw = "random" then e.drawConversion t trait
  else
    let some name := trait.name? raw | failure
    return e.convertedOutput t trait (quote name) []

def bonusColour (field : String) : String :=
  if field ∈ ["perma_mult", "perma_h_mult", "perma_x_mult", "perma_h_x_mult"] then Colour.mult
  else if field ∈ ["perma_p_dollars", "perma_h_dollars"] then Colour.money
  else Colour.chips

/-- The field of a card that keeps the bonus. -/
def bonusField (e : Effect) : String :=
  identifier (e.params.textOr "bonus_type" "perma_bonus")

def bonusOutput (field v : String) : Output :=
  let target := triggered ++ ".ability." ++ field
  { body := .closure (target ++ " = (" ++ target ++ " or 0) + " ++ parenthesised v)
    message := some "localize('k_upgrade_ex')"
    colour := bonusColour field }

/-- Raises a bonus that the triggering card keeps. -/
def permaBonus (e : Effect) : Generator Output := do
  unless (← Generator.trigger).firesPerCard do failure
  unless startsWith "perma_" e.bonusField do failure
  return bonusOutput e.bonusField (← e.amount e.bonusField (.int 1))

end JokerRules.Effect
