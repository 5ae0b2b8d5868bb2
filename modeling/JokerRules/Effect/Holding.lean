import JokerRules.Card
import JokerRules.Effect.Code

/-!
The areas that hold jokers and consumables: room for another card, and the choice of a card to act
on.
-/

namespace JokerRules

open Text

structure Holding where
  area : String
  /-- Counts the cards that are on their way into the area. -/
  buffer : String

namespace Holding

def jokers : Holding := ⟨"G.jokers", "G.GAME.joker_buffer"⟩

def consumables : Holding := ⟨"G.consumeables", "G.GAME.consumeable_buffer"⟩

/-- The test whether there is room for another card. -/
def room (h : Holding) : String :=
  s!"#{h.area}.cards + {h.buffer} < {h.area}.config.card_limit"

def reserve (h : Holding) : String :=
  s!"    {h.buffer} = {h.buffer} + 1"

def release (h : Holding) : String :=
  h.buffer ++ " = 0"

/-- Code that adds a card if there is room, and notes in a local variable whether it does. -/
def spawn (h : Holding) (created code : String) : String :=
  unlines [
    s!"local {created} = false",
    s!"if {h.room} then",
    s!"    {created} = true",
    h.reserve,
    indent 1 (event code),
    "end"]

/-- Code that adds a copy of a card under a condition, and forgets the card otherwise. -/
def copy (h : Holding) (target condition code : String) : String :=
  unlines [
    s!"if {target} and {condition} then",
    h.reserve,
    indent 1 (event code),
    "else",
    s!"    {target} = nil",
    "end"]

end Holding

/-- Code that dissolves a card under a condition. -/
def dissolve (target condition : String) : String :=
  unlines [
    s!"if {condition} then",
    s!"    {target}.getting_sliced = true",
    indent 1 (event (target ++ ":start_dissolve(\x7b G.C.RED \x7d, nil, 1.6)")),
    "end"]

/-- Code that binds a local variable to a random member of an area that passes a test. -/
def chooseFrom (pool target element area test seed : String) : String :=
  let choice := randomElement pool seed
  unlines [
    "local " ++ pool ++ " = \x7b\x7d",
    s!"for _, {element} in ipairs({area}) do",
    s!"    if {test} then",
    s!"        {pool}[#{pool} + 1] = {element}",
    "    end",
    "end",
    s!"local {target} = #{pool} > 0 and {choice} or nil"]

/-- Code that binds a local variable to a neighbour of this joker. -/
def chooseNeighbour (target offset : String) : String :=
  unlines [
    s!"local {target} = nil",
    "for i, other_joker in ipairs(G.jokers.cards) do",
    "    if other_joker == card then",
    s!"        {target} = G.jokers.cards[i {offset}]",
    "    end",
    "end"]

namespace Effect

/-- Chooses another joker: a neighbour, the first with a key, or a random one. Gives the local
variable and the code that binds it. -/
def chooseJoker (e : Effect) (stem : String) (allowEternal : Bool) : Naming (String × String) := do
  let target ← fresh stem
  let method := e.params.textOr "selection_method" "random"
  if method = "left" then return (target, chooseNeighbour target "- 1")
  else if method = "right" then return (target, chooseNeighbour target "+ 1")
  else if method = "specific" then
    let key := quote (familyKey "j_" (e.params.textOr "joker_key" "j_joker"))
    return (target, s!"local {target} = SMODS.find_card({key})[1]")
  else
    let pool ← fresh "joker_pool"
    let eternal := if allowEternal then "" else " and not other_joker.ability.eternal"
    let test := "other_joker ~= card" ++ eternal ++ " and not other_joker.getting_sliced"
    return (target, chooseFrom pool target "other_joker" "G.jokers.cards" test (e.seed stem))

/-- The set of an authored type of consumable, and the status message for a new one. -/
def familyOf? (raw : String) : Option (String × String) :=
  let s := lowerAscii raw
  if s = "tarot" then some ("Tarot", "k_plus_tarot")
  else if s = "planet" then some ("Planet", "k_plus_planet")
  else if s = "spectral" then some ("Spectral", "k_plus_spectral")
  else none

/-- Chooses a random consumable, of one set if a set is authored. -/
def chooseConsumable (e : Effect) (stem : String) : Naming (String × String) := do
  let pool ← fresh "consumable_pool"
  let target ← fresh stem
  let ofSet := match familyOf? (e.params.textOr "consumable_type" "random") with
    | some (set, _) => s!" and held.ability.set == '{set}'"
    | none => ""
  let test := "not held.getting_sliced" ++ ofSet
  return (target, chooseFrom pool target "held" "G.consumeables.cards" test (e.seed stem))

end Effect

end JokerRules
