import JokerRules.Keyed
import JokerRules.Text.Case
import JokerRules.Text.Layout
import JokerRules.Text.Quoted

/-!
Overrides of functions that the whole game shares. Requests of all items are collected, and each
function is overridden once, with a branch for every distinct request.
-/

namespace JokerRules

open Text

/-- The functions that can be overridden, in the order of their overrides. -/
inductive GameFunction
  | setCost | fourFingers | shortcut | alwaysScores | showman | isSuit | getId
deriving DecidableEq, Repr

namespace GameFunction

def all : List GameFunction :=
  [setCost, fourFingers, shortcut, alwaysScores, showman, isSuit, getId]

/-- The function in the game. -/
def function : GameFunction → String
  | setCost => "Card:set_cost"
  | fourFingers => "SMODS.four_fingers"
  | shortcut => "SMODS.shortcut"
  | alwaysScores => "SMODS.always_scores"
  | showman => "SMODS.showman"
  | isSuit => "Card:is_suit"
  | getId => "Card:get_id"

end GameFunction

/-- The wish of an item to take part in an override. The parameters are expressions, in which `card`
is a card of the item. -/
structure OverrideRequest where
  kind : GameFunction
  owner : String
  params : Keyed String := {}
deriving DecidableEq

namespace OverrideRequest

def param (r : OverrideRequest) (key : String) : String :=
  r.params.getD key "nil"

/-- The test whether the player owns the item. -/
def owned (r : OverrideRequest) : String :=
  "next(SMODS.find_card(" ++ quote r.owner ++ "))"

/-- A statement for each copy of the item that the player owns. -/
def forEachCopy (r : OverrideRequest) (body : String) : String :=
  unlines [
    "for _, card in ipairs(SMODS.find_card(" ++ quote r.owner ++ ")) do",
    indent 1 body,
    "end"]

/-- The statement that lowers a price. -/
def discount (r : OverrideRequest) : String :=
  let amount := r.param "amount"
  if r.param "mode" = "percentage" then
    s!"self.cost = math.max(0, math.floor(self.cost * (1 - {amount} / 100)))"
  else s!"self.cost = math.max(0, self.cost - {amount})"

/-- The branch that lets two suits stand for each other. -/
def suitBranch (r : OverrideRequest) : String :=
  let a := r.param "suit_1"
  let b := r.param "suit_2"
  unlines [
    "if " ++ r.owned ++ " then",
    s!"    if (suit == {a} and self.base.suit == {b}) or " ++
      s!"(suit == {b} and self.base.suit == {a}) then",
    "        return true",
    "    end",
    "end"]

/-- The branch that lets ranks count as another one. -/
def rankBranch (r : OverrideRequest) : String :=
  unlines [
    "if " ++ r.owned ++ " and " ++ r.param "matches" ++ " then",
    "    return " ++ r.param "target",
    "end"]

end OverrideRequest

namespace Override

/-- A function's name as part of a variable's name. -/
def variableName (function : String) : String :=
  String.ofList ((lowerAscii function).toList.map fun c => if c = '.' then '_' else c)

/-- An override that returns a fixed value while one of the items is owned. -/
def constantOverride (kind : GameFunction) (value : String) (requests : List OverrideRequest) :
    String :=
  let function := kind.function
  let saved := variableName function ++ "_ref"
  let present := " or ".intercalate (requests.map (·.owned))
  unlines [
    s!"local {saved} = {function}",
    s!"function {function}(...)",
    s!"    if {present} then",
    s!"        return {value}",
    "    end",
    s!"    return {saved}(...)",
    "end"]

def setCost (requests : List OverrideRequest) : String :=
  unlines [
    "local card_set_cost_ref = Card.set_cost",
    "function Card:set_cost()",
    "    card_set_cost_ref(self)",
    "    if self.area and self.area ~= G.jokers and self.area ~= G.consumeables then",
    indent 2 (unlines (requests.map fun r => r.forEachCopy r.discount)),
    "        self.sell_cost = math.max(1, math.floor(self.cost / 2)) + " ++
      "(self.ability.extra_value or 0)",
    "        self.sell_cost_label = self.facing == 'back' and '?' or self.sell_cost",
    "    end",
    "end"]

def isSuit (requests : List OverrideRequest) : String :=
  unlines [
    "local card_is_suit_ref = Card.is_suit",
    "function Card:is_suit(suit, bypass_debuff, flush_calc)",
    "    local ret = card_is_suit_ref(self, suit, bypass_debuff, flush_calc)",
    "    if not ret and not SMODS.has_no_suit(self) then",
    indent 2 (unlines (requests.map (·.suitBranch))),
    "    end",
    "    return ret",
    "end"]

def getId (requests : List OverrideRequest) : String :=
  unlines [
    "local card_get_id_ref = Card.get_id",
    "function Card:get_id()",
    "    local id = card_get_id_ref(self)",
    "    if id and id > 0 then",
    indent 2 (unlines (requests.map (·.rankBranch))),
    "    end",
    "    return id",
    "end"]

/-- The override of one function. -/
def override (kind : GameFunction) (requests : List OverrideRequest) : String :=
  match kind with
  | .setCost => setCost requests
  | .fourFingers => constantOverride kind "4" requests
  | .shortcut | .alwaysScores | .showman => constantOverride kind "true" requests
  | .isSuit => isSuit requests
  | .getId => getId requests

/-- The distinct requests for a function, in the order in which they first occur. -/
def requestsFor (kind : GameFunction) (requests : List OverrideRequest) : List OverrideRequest :=
  (requests.filter (·.kind == kind)).eraseDups

/-- One override for each function that is asked for. -/
def overrides (requests : List OverrideRequest) : List String :=
  (GameFunction.all.filter fun kind => !(requestsFor kind requests).isEmpty).map fun kind =>
    override kind (requestsFor kind requests)

end Override

end JokerRules
