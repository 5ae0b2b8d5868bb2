import JokerRules.Effect.Holding
import JokerRules.Effect.Modifier

/-!
Effects that bring new jokers, consumables and tags. Whether there is room is found out before the
table is built, so that the status message shows only if something was made.
-/

namespace JokerRules.Effect

open Text

/-- The entry that restricts a new joker to a rarity. -/
def rarityLimit? (raw : String) : Option String :=
  let s := lowerAscii raw
  if s ∈ ["random", "any"] then none
  else if s = "common" then some "rarity = 'Common'"
  else if s = "uncommon" then some "rarity = 'Uncommon'"
  else if s = "rare" then some "rarity = 'Rare'"
  else if s = "legendary" then some "legendary = true"
  else some ("rarity = " ++ singleQuoted s)

def addCard (entries : List String) : String :=
  "SMODS.add_card(\x7b " ++ ", ".intercalate entries ++ " \x7d)"

def createJoker (e : Effect) : Naming Output := do
  let key := e.params.textOr "joker_key" "random"
  let choice := if key = "random" then (rarityLimit? (e.params.textOr "rarity" "random")).toList
    else ["key = " ++ singleQuoted (familyKey "j_" key)]
  let edition := match e.setEdition? "joker_card" "edition" with
    | some call => [unlines ["if joker_card then", "    " ++ call, "end"]]
    | none => []
  let code := unlines (["local joker_card = " ++ addCard ("set = 'Joker'" :: choice)] ++ edition ++
    [Holding.jokers.release])
  let created ← fresh "created_joker"
  return {
    body := .messageOnly
    message := some s!"{created} and localize('k_plus_joker') or nil"
    colour := Colour.blue
    hoisted := [Holding.jokers.spawn created code] }

def copyJoker (e : Effect) : Naming Output := do
  let (target, pick) ← e.chooseJoker "copy_target" true
  let copied :=
    s!"local copied_joker = copy_card({target}, nil, nil, nil, " ++
      s!"{target}.edition and {target}.edition.negative)"
  let code := unlines ([copied] ++ (e.setEdition? "copied_joker" "edition").toList ++
    ["copied_joker:add_to_deck()", "G.jokers:emplace(copied_joker)", Holding.jokers.release])
  return {
    body := .messageOnly
    message := some s!"{target} and localize('k_duplicated_ex') or nil"
    colour := Colour.blue
    hoisted := [pick, Holding.jokers.copy target Holding.jokers.room code] }

def familyColour (set : String) : String :=
  if set = "Planet" then Colour.planet
  else if set = "Spectral" then Colour.spectral
  else Colour.tarot

/-- A consumable of a set, by key if one is authored. Without a set, one of the three is drawn. -/
def createConsumable (e : Effect) : Naming Output := do
  let output (created message colour : String) (draw entries : List String) : Output :=
    { body := .messageOnly
      message := some s!"{created} and {message} or nil"
      colour
      hoisted := draw ++ [Holding.consumables.spawn created
        (unlines [addCard entries, Holding.consumables.release])] }
  let created ← fresh "created_consumable"
  match familyOf? (e.params.textOr "consumable_type" "random") with
  | some (set, message) =>
    let key := ((e.params.text? "specific_card").filter (· ≠ "random")).toList.map fun key =>
      "key = " ++ singleQuoted (familyKey "c_" (lowerAscii key))
    return output created s!"localize('{message}')" (familyColour set) []
      (s!"set = '{set}'" :: key)
  | none =>
    let set ← fresh "consumable_set"
    let choice := randomName ["Tarot", "Planet", "Spectral"] (e.seed "consumable_set")
    return output created "\"+1 Consumable\"" Colour.purple [s!"local {set} = {choice}"]
      ["set = " ++ set]

def copyConsumable (e : Effect) : Naming Output := do
  let negative := e.params.flag "negative"
  let (target, pick) ← e.chooseConsumable "copied_consumable"
  let edition := if negative then ["copied_card:set_edition(\"e_negative\", true)"] else []
  let code := unlines ([s!"local copied_card = copy_card({target})"] ++ edition ++
    ["copied_card:add_to_deck()", "G.consumeables:emplace(copied_card)",
      Holding.consumables.release])
  let always := if negative then " or true" else ""
  let condition := "(" ++ Holding.consumables.room ++ always ++ ")"
  return {
    body := .messageOnly
    message := some s!"{target} and localize('k_duplicated_ex') or nil"
    colour := Colour.purple
    hoisted := [pick, Holding.consumables.copy target condition code] }

/-- A named tag, or one drawn from all tags. -/
def createTag (e : Effect) : Naming Output := do
  let output (tag : String) (hoisted : List String) : Output :=
    { body := .closure (event (unlines [
        s!"add_tag(Tag({tag}))",
        "play_sound('generic1', 0.9 + math.random() * 0.1, 0.8)",
        "play_sound('holo1', 1.2 + math.random() * 0.1, 0.4)"]))
      message := some "\"Tag!\""
      colour := Colour.green
      hoisted }
  let key := e.params.textOr "tag_type" "random"
  if key = "random" then
    let pool ← fresh "tag_pool"
    let chosen ← fresh "random_tag"
    let choice := randomElement pool (e.seed "create_tag")
    return output chosen [unlines [
      "local " ++ pool ++ " = \x7b\x7d",
      "for tag_key in pairs(G.P_TAGS) do",
      s!"    {pool}[#{pool} + 1] = tag_key",
      "end",
      s!"local {chosen} = {choice}"]]
  else return output (quote (familyKey "tag_" (lowerAscii key))) []

end JokerRules.Effect
