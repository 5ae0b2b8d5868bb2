import JokerRules.Effect.Generator
import JokerRules.Effect.Holding

/-!
Effects that destroy jokers, consumables, the item itself or the card that fires the rule.
-/

namespace JokerRules.Effect

def destroyJoker (e : Effect) : Naming Output := do
  let (target, pick) ← e.chooseJoker "destroy_target" false
  return {
    body := .messageOnly
    message := some (target ++ " and \"Destroyed!\" or nil")
    colour := Colour.red
    hoisted := [pick, dissolve target s!"{target} and not {target}.ability.eternal"] }

def destroyConsumable (e : Effect) : Naming Output := do
  let (target, pick) ← e.chooseConsumable "destroyed_consumable"
  return {
    body := .messageOnly
    message := some (target ++ " and \"Destroyed Consumable!\" or nil")
    colour := Colour.red
    hoisted := [pick, dissolve target target] }

def destroyedOutput (body : Body) : Output :=
  { body, message := some "\"Destroyed!\"", colour := Colour.red }

def destroySelf : Output :=
  destroyedOutput (.closure (Text.unlines [
    "card.getting_sliced = true",
    event "card:start_dissolve(\x7b G.C.RED \x7d, nil, 1.6)"]))

/-- A discarded card is removed in place; a scored or held one is given to the game to destroy. -/
def destroyTriggeredCard : Generator Output := do
  let t ← Generator.trigger
  if t = .cardDiscarded then return destroyedOutput (.fields ["remove = true"])
  else if t.firesPerCard then
    return destroyedOutput (.closure "SMODS.destroy_cards(context.other_card)")
  else failure

end JokerRules.Effect
