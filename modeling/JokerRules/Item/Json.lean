import JokerRules.Item
import JokerRules.Json

/-!
The JSON form of items. Reading ignores members it does not know and fills in defaults; writing
gives every field.
-/

namespace JokerRules

namespace Json

/-- A member that has to be there. -/
def required {α : Type} (members : List (String × Json)) (name : String) (read : Json → Option α) :
    Option α :=
  (member? members name).bind read

/-- A member that may be missing. -/
def defaulted {α : Type} (members : List (String × Json)) (name : String) (default : α)
    (read : Json → Option α) : Option α :=
  match member? members name with
  | none => some default
  | some v => read v

/-- Null for nothing. -/
def nullable {α : Type} (read : Json → Option α) : Json → Option (Option α)
  | null => some none
  | v => (read v).map some

def list? {α : Type} (read : Json → Option α) (v : Json) : Option (List α) :=
  v.arr?.bind fun es => es.mapM read

def ofOption {α : Type} (write : α → Json) : Option α → Json
  | none => null
  | some a => write a

def ofWord (n : UInt32) : Json :=
  int n.toNat

end Json

open Json

namespace Value

/-- An integer of 64 bits stays one; any other number is a real. -/
def ofJson? : Json → Option Value
  | .bool b => some (bool b)
  | .int n =>
    if Int64.minValue.toInt ≤ n ∧ n ≤ Int64.maxValue.toInt then some (int (Int64.ofInt n))
    else some (real (.ofInt n))
  | .real x => some (real x)
  | .str s => some (str s)
  | _ => none

def toJson : Value → Json
  | bool b => .bool b
  | int n => .int n.toInt
  | real x => .real x
  | str s => .str s

end Value

namespace Params

def ofJson? (v : Json) : Option Params :=
  v.obj?.bind fun ms =>
    (ms.mapM fun (m : String × Json) => (Value.ofJson? m.2).map fun w => (m.1, w)).map Keyed.ofList

def toJson (p : Params) : Json :=
  .obj (p.entries.map fun e => (e.1, e.2.toJson))

end Params

namespace Joiner

def ofJson? (v : Json) : Option Joiner :=
  v.choice?.bind ofWord?

def toJson (j : Joiner) : Json :=
  .str j.word

end Joiner

namespace Condition

def ofJson? (v : Json) : Option Condition := do
  let ms ← v.record? ["id", "type", "params", "negate", "next"]
  return {
    id := ← required ms "id" str?
    kind := .ofId (← required ms "type" choice?)
    params := ← defaulted ms "params" {} Params.ofJson?
    negate := ← defaulted ms "negate" false bool?
    next := ← defaulted ms "next" .and Joiner.ofJson? }

def toJson (c : Condition) : Json :=
  .obj [("id", .str c.id), ("type", .str c.kind.id), ("params", c.params.toJson),
    ("negate", .bool c.negate), ("next", c.next.toJson)]

end Condition

namespace ConditionGroup

def ofJson? (v : Json) : Option ConditionGroup := do
  let ms ← v.record? ["conditions", "next"]
  return {
    conditions := ← defaulted ms "conditions" [] (list? Condition.ofJson?)
    next := ← defaulted ms "next" .and Joiner.ofJson? }

def toJson (g : ConditionGroup) : Json :=
  .obj [("conditions", .arr (g.conditions.map Condition.toJson)), ("next", g.next.toJson)]

end ConditionGroup

namespace Effect

def ofJson? (v : Json) : Option Effect := do
  let ms ← v.record? ["id", "type", "params", "message"]
  return {
    id := ← required ms "id" str?
    kind := .ofId (← required ms "type" choice?)
    params := ← defaulted ms "params" {} Params.ofJson?
    message := ← defaulted ms "message" none (nullable str?) }

def toJson (e : Effect) : Json :=
  .obj [("id", .str e.id), ("type", .str e.kind.id), ("params", e.params.toJson),
    ("message", ofOption .str e.message)]

end Effect

namespace RandomGroup

def ofJson? (v : Json) : Option RandomGroup := do
  let ms ← v.record? ["id", "numerator", "denominator", "effects"]
  return {
    id := ← required ms "id" str?
    numerator := ← required ms "numerator" word?
    denominator := ← required ms "denominator" word?
    effects := ← defaulted ms "effects" [] (list? Effect.ofJson?) }

def toJson (g : RandomGroup) : Json :=
  .obj [("id", .str g.id), ("numerator", ofWord g.numerator),
    ("denominator", ofWord g.denominator), ("effects", .arr (g.effects.map Effect.toJson))]

end RandomGroup

namespace Trigger

def ofJson? (v : Json) : Option Trigger :=
  v.choice?.bind ofId?

end Trigger

namespace Rule

def ofJson? (v : Json) : Option Rule := do
  let ms ← v.record? ["id", "trigger", "condition_groups", "effects", "random_groups"]
  return {
    id := ← required ms "id" str?
    trigger := ← required ms "trigger" Trigger.ofJson?
    conditionGroups := ← defaulted ms "condition_groups" [] (list? ConditionGroup.ofJson?)
    effects := ← defaulted ms "effects" [] (list? Effect.ofJson?)
    randomGroups := ← defaulted ms "random_groups" [] (list? RandomGroup.ofJson?) }

def toJson (r : Rule) : Json :=
  .obj [("id", .str r.id), ("trigger", .str r.trigger.id),
    ("condition_groups", .arr (r.conditionGroups.map ConditionGroup.toJson)),
    ("effects", .arr (r.effects.map Effect.toJson)),
    ("random_groups", .arr (r.randomGroups.map RandomGroup.toJson))]

end Rule

namespace UserVariable

def ofJson? (v : Json) : Option UserVariable := do
  let ms ← v.record? ["id", "name", "initial", "description"]
  return {
    id := ← required ms "id" str?
    name := ← required ms "name" str?
    initial := ← required ms "initial" Value.ofJson?
    description := ← defaulted ms "description" none (nullable str?) }

def toJson (u : UserVariable) : Json :=
  .obj [("id", .str u.id), ("name", .str u.name), ("initial", u.initial.toJson),
    ("description", ofOption .str u.description)]

end UserVariable

namespace Rarity

def ofJson? : Json → Option Rarity
  | .obj [("custom", v)] => v.str?.map custom
  | v => v.choice?.bind fun s =>
    if s = "common" then some common
    else if s = "uncommon" then some uncommon
    else if s = "rare" then some rare
    else if s = "legendary" then some legendary
    else none

def toJson : Rarity → Json
  | common => .str "common"
  | uncommon => .str "uncommon"
  | rare => .str "rare"
  | legendary => .str "legendary"
  | custom key => .obj [("custom", .str key)]

end Rarity

namespace Item

/-- The fields of an item in the order in which they are written. -/
def fields : List String :=
  ["id", "name", "key", "description", "cost", "rarity", "blueprint_compat", "eternal_compat",
    "perishable_compat", "unlocked", "discovered", "unlock_description", "has_overlay", "rules",
    "user_variables"]

def ofJson? (v : Json) : Option Item := do
  let ms ← v.record? fields
  return {
    id := ← required ms "id" str?
    name := ← required ms "name" str?
    key := ← defaulted ms "key" "" str?
    description := ← defaulted ms "description" "" str?
    cost := ← defaulted ms "cost" none (nullable word?)
    rarity := ← defaulted ms "rarity" .common Rarity.ofJson?
    blueprintCompat := ← defaulted ms "blueprint_compat" true bool?
    eternalCompat := ← defaulted ms "eternal_compat" true bool?
    perishableCompat := ← defaulted ms "perishable_compat" true bool?
    unlocked := ← defaulted ms "unlocked" true bool?
    discovered := ← defaulted ms "discovered" true bool?
    unlockDescription := ← defaulted ms "unlock_description" none (nullable str?)
    hasOverlay := ← defaulted ms "has_overlay" false bool?
    rules := ← defaulted ms "rules" [] (list? Rule.ofJson?)
    userVariables := ← defaulted ms "user_variables" [] (list? UserVariable.ofJson?) }

def toJson (item : Item) : Json :=
  .obj [("id", .str item.id), ("name", .str item.name), ("key", .str item.key),
    ("description", .str item.description), ("cost", ofOption ofWord item.cost),
    ("rarity", item.rarity.toJson), ("blueprint_compat", .bool item.blueprintCompat),
    ("eternal_compat", .bool item.eternalCompat),
    ("perishable_compat", .bool item.perishableCompat), ("unlocked", .bool item.unlocked),
    ("discovered", .bool item.discovered),
    ("unlock_description", ofOption .str item.unlockDescription),
    ("has_overlay", .bool item.hasOverlay), ("rules", .arr (item.rules.map Rule.toJson)),
    ("user_variables", .arr (item.userVariables.map UserVariable.toJson))]

end Item

end JokerRules
