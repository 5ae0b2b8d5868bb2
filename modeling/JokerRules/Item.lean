import JokerRules.Rule

/-!
Items: the jokers whose rules are compiled, and the storage slots on their cards.
-/

namespace JokerRules

inductive Rarity
  | common | uncommon | rare | legendary
  /-- A rarity that another mod registers under a key. -/
  | custom (key : String)
deriving DecidableEq, Inhabited

namespace Rarity

def literal : Rarity → String
  | common => "1" | uncommon => "2" | rare => "3" | legendary => "4"
  | custom key => Text.quote key

/-- The price in the shop if the author gives none. -/
def usualCost : Rarity → UInt32
  | common | custom _ => 4
  | uncommon => 6
  | rare => 8
  | legendary => 20

end Rarity

/-- A variable that the author declares. -/
structure UserVariable where
  id : String
  name : String
  initial : Value
  description : Option String := none
deriving DecidableEq

/-- A storage location on the item's card. -/
structure Slot where
  name : String
  initial : Value
  description : Option String := none
deriving DecidableEq

namespace Slot

def declaration (s : Slot) : String :=
  s.name ++ " = " ++ s.initial.literal

def sameAs (s t : Slot) : Bool :=
  s.name == t.name && s.initial.sameAs t.initial && s.description == t.description

/-- The slot of an authored variable, under the variable's identifier. -/
def ofVariable (v : UserVariable) : Slot :=
  ⟨Text.identifier v.name, v.initial, v.description⟩

/-- How the generated code reads the slot of a given name. -/
def read (name : String) : String :=
  "card.ability.extra." ++ name

end Slot

structure Item where
  id : String
  name : String
  key : String := ""
  description : String := ""
  cost : Option UInt32 := none
  rarity : Rarity := .common
  blueprintCompat : Bool := true
  eternalCompat : Bool := true
  perishableCompat : Bool := true
  unlocked : Bool := true
  discovered : Bool := true
  unlockDescription : Option String := none
  /-- Whether a second image is drawn over the card. -/
  hasOverlay : Bool := false
  rules : List Rule := []
  userVariables : List UserVariable := []
deriving DecidableEq

namespace Item

/-- The identifier of the authored key, or else of the name. -/
def slug (item : Item) : String :=
  let authored := Text.identifier item.key
  if authored = "" then Text.identifier item.name else authored

def summary (item : Item) : String :=
  s!"Item({item.name}, {item.rules.length} rules)"

end Item

end JokerRules
