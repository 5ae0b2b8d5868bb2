import JokerRules.Encoding
import JokerRules.GameVariable
import JokerRules.Item
import JokerRules.Text.Case

/-!
Amounts: the expressions by which the generated code reads a number, made from parameter values.

An effect keeps its literals in slots, so that they persist with the card. A condition needs no
slot: it has its literals in place.
-/

namespace JokerRules

/-- The slot that holds the offset of a reading: the label in lower case without its blanks. -/
def offsetName (label : String) : String :=
  String.ofList ((label.toList.filter fun c => !Text.isBlank c).flatMap Text.lowerChar)

inductive Amount
  | zero
  /-- A slot of the card. -/
  | stored (slot : String)
  /-- A local variable that holds a slot's earlier value. -/
  | captured (name : String)
  | constant (v : Value)
  /-- `offset + multiplier * template`, the offset being read by an expression of its own. -/
  | state (template : String) (multiplier offset : Binary64) (offsetExpr : String)
  /-- A seeded draw between two expressions. -/
  | drawn (seed low high : String)

namespace Amount

/-- A reading of the game's state, scaled and shifted only as far as needed. -/
def affine (template : String) (multiplier offset : Binary64) (offsetExpr : String) : String :=
  if offset.equals (.zero false) then
    if multiplier.equals .one then template
    else "(" ++ template ++ ") * " ++ multiplier.literal
  else if multiplier.equals .one then offsetExpr ++ " + (" ++ template ++ ")"
  else offsetExpr ++ " + (" ++ template ++ ") * " ++ multiplier.literal

def expr : Amount → String
  | zero => "0"
  | stored slot => Slot.read slot
  | captured name => name
  | constant v => v.literal
  | state template multiplier offset offsetExpr => affine template multiplier offset offsetExpr
  | drawn seed low high =>
    "pseudorandom(" ++ Text.singleQuoted seed ++ ", " ++ low ++ ", " ++ high ++ ")"

/-- Whether the amount is computed anew at each reading. -/
def isDynamic : Amount → Bool
  | state .. | drawn .. => true
  | _ => false

end Amount

/-- The local variables that hold the earlier values of slots. -/
abbrev Captures := Keyed String

/-- An amount and what it asks of the item. -/
structure Resolved where
  amount : Amount
  /-- The slots that the amount reads and that have to be declared for it. -/
  newSlots : List Slot := []
  /-- The variable that the value names. -/
  reference : Option String := none
  /-- The slot that has to hold the offset of a reading. -/
  offsetSlot : Option Slot := none

namespace Resolved

def ofGameState (id : String) (multiplier offset : Binary64) (registry : Registry) : Resolved :=
  match registry.get? id with
  | none => { amount := .zero }
  | some var =>
    let name := offsetName var.label
    let amount := .state var.template multiplier offset (Slot.read name)
    if offset.equals (.zero false) then { amount }
    else
      let slot : Slot := { name, initial := .ofNumber offset }
      { amount, newSlots := [slot], offsetSlot := some slot }

def ofRange (min max : Binary64) (effectId hint : String) : Resolved :=
  let low := hint ++ "_min"
  let high := hint ++ "_max"
  { amount := .drawn (hint ++ "_" ++ effectId) (Slot.read low) (Slot.read high)
    newSlots := [{ name := low, initial := .ofNumber min },
      { name := high, initial := .ofNumber max }] }

/-- The variable that a text names, read from its local variable if it has one. -/
def ofReference (raw : String) (captures : Captures) : Resolved :=
  let name := Text.identifier raw
  if name = "" then { amount := .zero }
  else
    let amount := match captures.get? name with
      | some captured => .captured captured
      | none => .stored name
    { amount, reference := some name }

def ofLiteral (initial : Value) (hint : String) : Resolved :=
  { amount := .stored hint, newSlots := [{ name := hint, initial }] }

/-- The amount of an effect. `hint` names the slot of a literal. -/
def ofValue (value : Value) (effectId hint : String) (registry : Registry) (captures : Captures) :
    Resolved :=
  match value with
  | .str raw =>
    if Encoding.isMarked raw then
      match Encoding.parse raw with
      | .ok (.gameState id multiplier offset) => ofGameState id multiplier offset registry
      | .ok (.range min max) => ofRange min max effectId hint
      | .error _ => { amount := .zero }
    else match value.number? with
      | some x => ofLiteral (.ofNumber x) hint
      | none => ofReference raw captures
  | literal => ofLiteral literal hint

end Resolved

namespace Amount

/-- The amount of a condition, which allocates nothing. -/
def ofOperand (value : Value) (registry : Registry) : Amount :=
  match value with
  | .str raw =>
    if Encoding.isMarked raw then
      match Encoding.parse raw with
      | .ok (.gameState id multiplier offset) =>
        match registry.get? id with
        | some var => .state var.template multiplier offset offset.literal
        | none => .zero
      | .ok (.range min max) => .drawn "condition" min.literal max.literal
      | .error _ => .zero
    else match value.number? with
      | some x => .constant (.real x)
      | none => if Text.identifier raw = "" then .zero else .stored (Text.identifier raw)
  | literal => .constant literal

end Amount

end JokerRules
