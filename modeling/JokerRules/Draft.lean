import JokerRules.Amount
import JokerRules.Effect
import JokerRules.Names

/-!
The draft of one item: the names given out for it so far and everything its effects ask to be
declared.
-/

namespace JokerRules

/-- The slot that holds a denominator. All random groups with this denominator share it; the
numerator is that of the first of them. -/
structure Odds where
  name : String
  numerator : UInt32
  denominator : UInt32
deriving DecidableEq

structure Draft where
  /-- The key of the item in the game. -/
  owner : String
  slotNames : Names := {}
  localNames : Names := {}
  odds : List Odds := []
  /-- Slots of effects that hold while the item is owned. -/
  passiveSlots : List Slot := []
  /-- Slots of effects that happen when a rule fires. -/
  derivedSlots : List Slot := []
  /-- The slots that each effect asked for. -/
  effectSlots : Keyed (List String) := {}
  /-- The variables that values name. -/
  references : NameSet := {}
  /-- The slots that have to hold the offset of a reading. -/
  requiredSlots : List Slot := []
  /-- The slots that effects write. -/
  written : NameSet := {}
deriving DecidableEq

namespace Draft

def nextSlotName (d : Draft) (stem : String) : String × Draft :=
  let (name, names) := d.slotNames.next stem
  (name, { d with slotNames := names })

def nextLocalName (d : Draft) (stem : String) : String × Draft :=
  let (name, names) := d.localNames.next stem
  (name, { d with localNames := names })

/-- The slot of a denominator, made when the denominator is first met. Zero is taken for one. -/
def shareOdds (d : Draft) (numerator denominator : UInt32) : String × Draft :=
  let denominator := if denominator = 0 then 1 else denominator
  match d.odds.find? (·.denominator == denominator) with
  | some odds => (odds.name, d)
  | none =>
    let (name, d) := d.nextSlotName "odds"
    let slot : Slot := { name, initial := .int (Int64.ofNat denominator.toNat) }
    (name, { d with
      derivedSlots := d.derivedSlots ++ [slot]
      odds := d.odds ++ [⟨name, numerator, denominator⟩] })

def recordSlots (d : Draft) (effectId : String) (slots : List Slot) : Draft :=
  let names := d.effectSlots.getD effectId [] ++ slots.map (·.name)
  { d with effectSlots := d.effectSlots.insert effectId names }

/-- Adds a slot unless its name is taken. -/
def addSlot (taken : List Slot) (slots : List Slot) (slot : Slot) : List Slot :=
  if (taken ++ slots).any (·.name == slot.name) then slots else slots ++ [slot]

/-- Declares the slots of an effect that happens when a rule fires. -/
def store (d : Draft) (effectId : String) (slots : List Slot) : Draft :=
  { d.recordSlots effectId slots with
    derivedSlots := slots.foldl (addSlot d.passiveSlots) d.derivedSlots }

/-- Declares the slots of an effect that holds while the item is owned. -/
def storePassive (d : Draft) (effectId : String) (slots : List Slot) : Draft :=
  { d.recordSlots effectId slots with passiveSlots := slots.foldl (addSlot []) d.passiveSlots }

def addReference (d : Draft) (name : String) : Draft :=
  { d with references := NameSet.add d.references name }

def addRequired (d : Draft) (slot : Slot) : Draft :=
  if d.requiredSlots.any (·.sameAs slot) then d
  else { d with requiredSlots := d.requiredSlots ++ [slot] }

def addWritten (d : Draft) (name : String) : Draft :=
  { d with written := NameSet.add d.written name }

def slotNamesOf (d : Draft) (effectId : String) : List String :=
  d.effectSlots.getD effectId []

/-- Notes what a resolved amount asks for. -/
def recordAmount (d : Draft) (r : Resolved) : Draft :=
  let d := match r.reference with
    | some name => d.addReference name
    | none => d
  match r.offsetSlot with
  | some slot => d.addRequired slot
  | none => d

/-- The amount of an effect, under the next slot name of a stem. -/
def resolve (d : Draft) (e : Effect) (stem : String) (fallback : Value) (registry : Registry)
    (captures : Captures) : Resolved × Draft :=
  let (name, d) := d.nextSlotName stem
  let r := Resolved.ofValue ((e.params.get? "value").getD fallback) e.id name registry captures
  (r, d.recordAmount r)

/-- Takes names for local variables. -/
def naming {α : Type} (d : Draft) (make : Naming α) : α × Draft :=
  let (a, names) := make.run d.localNames
  (a, { d with localNames := names })

end Draft

end JokerRules
