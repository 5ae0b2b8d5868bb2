import JokerRules.Effect.Code
import JokerRules.Effect.Quantity

/-!
Effects on the course of the run: money and prices, hands, blinds, antes and odds, and on the item's
own variables.
-/

namespace JokerRules.Effect

open Text

def dollarsOutput (op : Operation) (v : String) : Output :=
  let change := op.change "G.GAME.dollars" v
  { body := .closure (if op = .set then "ease_dollars(" ++ change ++ ", true)"
      else "ease_dollars(" ++ change ++ ")")
    message := some (if op = .set then "\"$\"..tostring(" ++ v ++ ")"
      else "\"" ++ op.sign ++ "$\"..tostring(" ++ v ++ ")")
    colour := Colour.money }

def setDollars (e : Effect) : Generator Output := do
  let op := Operation.ofParams e.params .add
  return dollarsOutput op (← e.amount "dollars" (.int 5))

/-- Changes the sell value of a card held by a variable. -/
def sellValueCode (op : Operation) (card amount : String) : String :=
  let value := card ++ ".ability.extra_value"
  unlines [value ++ " = " ++ value ++ " or 0", op.assignment value amount, card ++ ":set_cost()"]

def sellValueOutput (op : Operation) (target v : String) : Output :=
  let each (area : String) :=
    unlines ["for _, target_card in ipairs(" ++ area ++ ") do",
      indent 1 (sellValueCode op "target_card" v), "end"]
  { body := .closure (if target = "all_jokers" then each "G.jokers.cards"
      else if target = "all_consumables" then each "G.consumeables.cards"
      else sellValueCode op "card" v)
    message := some "localize('k_val_up')"
    colour := Colour.money }

/-- The sell value of this item, of all jokers or of all consumables. -/
def setSellValue (e : Effect) : Generator Output := do
  let op := Operation.ofParams e.params .add
  let v ← e.amount "sell_value" (.int 1)
  return sellValueOutput op (e.params.textOr "target" "self") v

def modifiedOutput (op : Operation) (name v : String) : Output where
  body := .messageOnly
  message := some (match op with
    | .add | .multiply => "localize('k_upgrade_ex')"
    | .set => "\"Reset!\""
    | .subtract | .divide => "\"Downgrade!\"")
  colour := Colour.green
  hoisted := [op.assignment (Slot.read name) v]
  newSlots := [{ name, initial := .int 0 }]

/-- Writes one of the item's own variables before the table is built. -/
def modifyVariable (e : Effect) : Generator Output := do
  let some raw := e.params.text? "variable_name" | failure
  let name := identifier raw
  if name = "" then failure
  let op := Operation.ofParams e.params .add
  let v ← e.amount (name ++ "_change") (.int 1)
  Generator.noteWritten name
  return modifiedOutput op name v

/-- Code that raises the level of the hand being played, of a random visible hand or of a
named one. -/
def levelUp (e : Effect) (v : String) : Naming Output := do
  let selector := e.params.textOr "hand_type" "current"
  let output (body : Body) (hoisted : List String) : Output :=
    { body, message := some "localize('k_level_up_ex')", colour := Colour.red, hoisted }
  let call (hand : String) := Body.closure s!"level_up_hand(card, {hand}, true, {v})"
  if selector = "current" then return output (.fields ["level_up = " ++ v]) []
  else if selector = "random" then
    let pool ← fresh "hand_pool"
    let chosen ← fresh "random_hand"
    let choice := randomElement pool (e.seed "level_up_hand")
    return output (call chosen) [unlines [
      "local " ++ pool ++ " = \x7b\x7d",
      "for hand_key, hand in pairs(G.GAME.hands) do",
      "    if hand.visible then",
      s!"        {pool}[#{pool} + 1] = hand_key",
      "    end",
      "end",
      s!"local {chosen} = {choice}"]]
  else return output (call (quote selector)) []

/-- Only some triggers have a hand that is being played. -/
def levelUpHand (e : Effect) : Generator Output := do
  let t ← Generator.trigger
  if e.params.textOr "hand_type" "current" = "current" && !t.playsHand then failure
  e.levelUp (← e.amount "levels" (.int 1))

def drawCardsOutput (v : String) : Output where
  body := .closure (unlines ["if G.deck and #G.deck.cards > 0 then",
    "    SMODS.draw_cards(" ++ v ++ ")", "end"])
  message := some (changeMessage .add v "Cards")
  colour := Colour.blue

def drawCards (e : Effect) : Generator Output := do
  return drawCardsOutput (← e.amount "cards" (.int 1))

def blindSizeOutput (op : Operation) (v : String) : Output where
  body := .closure (unlines [
    op.assignment "G.GAME.blind.chips" v,
    "G.GAME.blind.chips = math.floor(G.GAME.blind.chips)",
    "G.GAME.blind.chip_text = number_format(G.GAME.blind.chips)",
    "G.HUD_blind:recalculate()"])
  message := some (changeMessage op v "Blind Size")
  colour := Colour.green

def editBlindSize (e : Effect) : Generator Output := do
  let op := Operation.ofParams e.params .multiply
  return blindSizeOutput op (← e.amount "blind_size" (.int 2))

def disableBossBlind : Output where
  body := .closure (unlines [
    "if G.GAME.blind and G.GAME.blind.boss and not G.GAME.blind.disabled then",
    "    G.GAME.blind:disable()",
    "    play_sound('timpani')",
    "end"])
  message := some "localize('ph_boss_disabled')"
  colour := Colour.green

def anteOutput (op : Operation) (v : String) : Output where
  body := .closure (unlines [
    "local ante_change = " ++ op.change "G.GAME.round_resets.ante" v,
    "ease_ante(ante_change)",
    "G.GAME.round_resets.blind_ante = " ++
      "G.GAME.round_resets.blind_ante or G.GAME.round_resets.ante",
    "G.GAME.round_resets.blind_ante = G.GAME.round_resets.blind_ante + ante_change"])
  message := some (changeMessage op v "Ante")
  colour := Colour.filter

def setAnte (e : Effect) : Generator Output := do
  let op := Operation.ofParams e.params .add
  return anteOutput op (← e.amount "ante" (.int 1))

/-- Changes every entry of the game's table of odds. -/
def probabilityOutput (op : Operation) (v : String) : Output where
  body := .closure (unlines [
    "for probability_key in pairs(G.GAME.probabilities) do",
    "    " ++ op.assignment "G.GAME.probabilities[probability_key]" v,
    "end"])
  message := some (changeMessage op v "Odds")
  colour := Colour.green

def modifyProbability (e : Effect) : Generator Output := do
  let op := Operation.ofParams e.params .multiply
  return probabilityOutput op (← e.amount "probability" (.int 2))

end JokerRules.Effect
