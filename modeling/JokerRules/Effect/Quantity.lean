import JokerRules.Effect.Generator
import JokerRules.Operation
import JokerRules.Output

/-!
Quantities of the run that effects change, once or for as long as the item is owned.
-/

namespace JokerRules

/-- The status message for a change by an amount. -/
def changeMessage (op : Operation) (amount unit : String) : String :=
  if unit = "" then "\"" ++ op.sign ++ "\"..tostring(" ++ amount ++ ")"
  else "\"" ++ op.sign ++ "\"..tostring(" ++ amount ++ ")..\" " ++ unit ++ "\""

/-- How the game lets a quantity be changed. -/
inductive Lever
  /-- By assignment to where it is kept. -/
  | stored (target : String)
  /-- By calling a function with the change. -/
  | eased (function current : String)

def Lever.apply (lever : Lever) (op : Operation) (amount : String) : String :=
  match lever with
  | stored target => op.assignment target amount
  | eased function current => function ++ "(" ++ op.change current amount ++ ")"

inductive Caption
  /-- Shows the change in a unit. -/
  | change (unit : String)
  /-- Shows a fixed text. -/
  | notice (text : String)

def Caption.message (caption : Caption) (op : Operation) (amount : String) : String :=
  match caption with
  | change unit => changeMessage op amount unit
  | notice text => Text.quote text

/-- A change when a rule fires, and how it is shown. -/
structure Change where
  lever : Lever
  caption : Caption
  colour : String

def Change.output (change : Change) (op : Operation) (v : String) : Output where
  body := .closure (change.lever.apply op v)
  message := some (change.caption.message op v)
  colour := change.colour

structure Quantity where
  stem : String
  fallback : Int64
  /-- What holds it changed while the item is owned. -/
  held : List Lever
  /-- The change when a rule fires, if there is such an effect. -/
  fired : Option Change := none
  /-- The operation, if the author has no say in it. -/
  fixed : Option Operation := none

namespace Quantity

def operation (q : Quantity) (p : Params) : Operation :=
  q.fixed.getD (.ofParams p .add)

def hands : Quantity where
  stem := "hands"
  fallback := 1
  held := [.stored "G.GAME.round_resets.hands",
    .eased "ease_hands_played" "G.GAME.current_round.hands_left"]
  fired := some {
    lever := .eased "ease_hands_played" "G.GAME.current_round.hands_left"
    caption := .change "Hand"
    colour := Colour.blue }

def discards : Quantity where
  stem := "discards"
  fallback := 1
  held := [.stored "G.GAME.round_resets.discards",
    .eased "ease_discard" "G.GAME.current_round.discards_left"]
  fired := some {
    lever := .eased "ease_discard" "G.GAME.current_round.discards_left"
    caption := .change "Discard"
    colour := Colour.red }

def handSize : Quantity where
  stem := "hand_size"
  fallback := 1
  held := [.eased "G.hand:change_size" "G.hand.config.card_limit"]
  fired := some {
    lever := .eased "G.hand:change_size" "G.hand.config.card_limit"
    caption := .change "Hand Size"
    colour := Colour.blue }

def jokerSlots : Quantity where
  stem := "joker_slots"
  fallback := 1
  held := [.stored "G.jokers.config.card_limit"]
  fired := some {
    lever := .stored "G.jokers.config.card_limit"
    caption := .change "Joker Slot"
    colour := Colour.darkEdition }

def consumableSlots : Quantity where
  stem := "consumable_slots"
  fallback := 1
  held := [.stored "G.consumeables.config.card_limit"]
  fired := some {
    lever := .stored "G.consumeables.config.card_limit"
    caption := .change "Consumable Slot"
    colour := Colour.purple }

def shopSlots : Quantity where
  stem := "shop_slots"
  fallback := 1
  held := [.eased "change_shop_size" "G.GAME.shop.joker_max"]
  fired := some {
    lever := .eased "change_shop_size" "G.GAME.shop.joker_max"
    caption := .change "Shop Slot"
    colour := Colour.money }

def interestCap : Quantity where
  stem := "interest_cap"
  fallback := 5
  held := [.stored "G.GAME.interest_cap"]
  fired := some {
    lever := .stored "G.GAME.interest_cap"
    caption := .notice "Interest Cap Changed!"
    colour := Colour.money }

/-- The floor of the player's money; allowing debt lowers it. -/
def debt : Quantity where
  stem := "debt"
  fallback := 20
  held := [.stored "G.GAME.bankrupt_at"]
  fired := some {
    lever := .stored "G.GAME.bankrupt_at"
    caption := .notice "Debt Allowed!"
    colour := Colour.money }
  fixed := some .subtract

def freeRerolls : Quantity where
  stem := "free_rerolls"
  fallback := 1
  held := [.eased "SMODS.change_free_rerolls" "G.GAME.current_round.free_rerolls"]

/-- The quantity that effects of a kind change. -/
def ofKind? : EffectKind → Option Quantity
  | .editHands => some hands
  | .editDiscards => some discards
  | .editHandSize => some handSize
  | .editJokerSlots => some jokerSlots
  | .editConsumableSlots => some consumableSlots
  | .editShopSlots => some shopSlots
  | .editInterestCap => some interestCap
  | .allowDebt => some debt
  | .freeRerolls => some freeRerolls
  | _ => none

end Quantity

/-- Changes a quantity each time the rule fires. -/
def Effect.changeQuantity (e : Effect) (q : Quantity) : Generator Output := do
  let some change := q.fired | failure
  return change.output (q.operation e.params) (← e.amount q.stem (.int q.fallback))

end JokerRules
