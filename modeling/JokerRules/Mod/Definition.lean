import JokerRules.Atlas
import JokerRules.Calculate
import JokerRules.Description
import JokerRules.Mod.Settings
import JokerRules.Mod.Storage
import JokerRules.Passive

/-!
The definition of one item in the generated code.
-/

namespace JokerRules

open Text

/-- A compiled item. -/
structure Definition where
  /-- The key of the item in the game. -/
  key : String
  source : String
  slots : List Slot
  requests : List OverrideRequest
deriving DecidableEq

namespace Definition

def flagLiteral (b : Bool) : String :=
  if b then "true" else "false"

def deckFunction (statements : List String) : String :=
  unlines ["function(self, card, from_debuff)", indent 1 (unlines statements), "end"]

/-- A function entry for the deck, unless there is nothing to do. -/
def deckEntry (name : String) (statements : List String) : List String :=
  if statements.isEmpty then [] else [name ++ " = " ++ deckFunction statements]

def textTable (text : String) (width : Nat) : String :=
  table ((Description.wrap text width).map singleQuoted)

/-- The texts that the game shows. -/
def texts (item : Item) (width : Nat) : String :=
  let unlock := (item.unlockDescription.filter fun u => trim u ≠ "").toList.map fun u =>
    "['unlock'] = " ++ textTable u width
  table (["['name'] = " ++ singleQuoted (trim item.name),
    "['text'] = " ++ textTable item.description width] ++ unlock)

/-- The entries of the definition. -/
def entries (item : Item) (cell : AtlasCell) (settings : ModSettings) (slots : List Slot)
    (d : Draft) (calculate : Option String) (passive : DeckCode) : List String :=
  let storage := table ["extra = " ++ table (slots.map (·.declaration))]
  let cost := item.cost.getD item.rarity.usualCost
  ["key = " ++ quote item.slug,
    "config = " ++ storage,
    "loc_txt = " ++ texts item settings.wrapWidth,
    "pos = " ++ cell.pos.literal] ++
  cell.overlay.toList.map (fun pos => "soul_pos = " ++ pos.literal) ++
  ["cost = " ++ toString cost.toNat,
    "rarity = " ++ item.rarity.literal,
    "blueprint_compat = " ++ flagLiteral item.blueprintCompat,
    "eternal_compat = " ++ flagLiteral item.eternalCompat,
    "perishable_compat = " ++ flagLiteral item.perishableCompat,
    "unlocked = " ++ flagLiteral item.unlocked,
    "discovered = " ++ flagLiteral item.discovered,
    "atlas = " ++ singleQuoted settings.atlasKey,
    "loc_vars = " ++ Storage.listingFunction slots d] ++
  calculate.toList.map (fun code => "calculate = " ++ code) ++
  deckEntry "add_to_deck" passive.addToDeck ++
  deckEntry "remove_from_deck" passive.removeFromDeck

/-- Compiles the rules of an item: the passive ones first, then the others. -/
def compileRules (item : Item) (registry : Registry) : StateM Draft (DeckCode × Option String) := do
  let passive ← DeckCode.compile item.rules registry
  let calculate ← Calculate.compile item.rules registry
  return (passive, calculate)

def compile (item : Item) (cell : AtlasCell) (settings : ModSettings) :
    Except ItemFault Definition :=
  if trim item.name = "" then .error (.missingName item.id)
  else if item.slug = "" then .error (.invalidKey item.name)
  else
    let key := settings.itemKey item.slug
    let ((passive, calculate), d) := (compileRules item settings.registry).run { owner := key }
    let user := Storage.authoredSlots item
    let slots := Storage.slots user d
    match Storage.checkOffsets item slots user d with
    | .error e => .error e
    | .ok () => .ok {
        key
        source := "SMODS.Joker " ++ table (entries item cell settings slots d calculate passive)
        slots
        requests := passive.requests }

end Definition

end JokerRules
