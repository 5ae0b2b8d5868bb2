import JokerRules.Draft
import JokerRules.Mod.Fault
import JokerRules.Text.Layout

/-!
The storage of an item: which slots it declares, in which order, and how they are listed for the
description.
-/

namespace JokerRules

open Text

namespace Storage

/-- Adds the slot of a variable if it has a name and the name is new. -/
def addVariable (slots : List Slot) (v : UserVariable) : List Slot :=
  let slot := Slot.ofVariable v
  if slot.name = "" || slots.any (·.name == slot.name) then slots else slots ++ [slot]

/-- The slots of the authored variables; the first spelling of a name wins. -/
def authoredSlots (item : Item) : List Slot :=
  item.userVariables.foldl addVariable []

/-- All slots: those of passive effects, the authored ones, and the rest. An authored slot takes its
name away from the others. -/
def slots (user : List Slot) (d : Draft) : List Slot :=
  let claimed (s : Slot) := user.any (·.name == s.name)
  let first := d.passiveSlots.filter (fun s => !claimed s) ++ user
  d.derivedSlots.foldl (Draft.addSlot []) first

/-- Every offset of a reading has to stand in the slot that the reading names, and nothing else may
use this slot. -/
def checkOffset (item : Item) (slots user : List Slot) (d : Draft) (required : Slot) :
    Except ItemFault Unit :=
  match slots.find? (·.name == required.name) with
  | none => .error (.undeclaredOffsetSlot item.name required.name)
  | some declared =>
    if !declared.initial.sameAs required.initial || user.any (·.name == required.name) ||
        NameSet.contains d.written required.name then
      .error (.conflictingOffsetSlot item.name required.name required.initial.literal)
    else .ok ()

def checkOffsets (item : Item) (slots user : List Slot) (d : Draft) : Except ItemFault Unit :=
  d.requiredSlots.forM (checkOffset item slots user d)

/-- What a slot contributes to the listing: a local declaration, if it holds odds, and
the values. -/
def listing (d : Draft) (slot : Slot) : List String × List String :=
  match d.odds.findIdx? (·.name == slot.name), d.odds.find? (·.name == slot.name) with
  | some i, some odds =>
    let numerator := Names.nth "numerator" (i + 1)
    let denominator := Names.nth "denominator" (i + 1)
    let n := toString odds.numerator.toNat
    let read := Slot.read slot.name
    let owner := singleQuoted d.owner
    ([s!"local {numerator}, {denominator} = " ++
        s!"SMODS.get_probability_vars(card, {n}, {read}, {owner})"],
      [numerator, denominator])
  | _, _ => ([], [Slot.read slot.name])

/-- The function that lists the slots for the description. Odds are listed as the pair that the game
makes of them. -/
def listingFunction (slots : List Slot) (d : Draft) : String :=
  let locals := slots.flatMap fun s => (listing d s).1
  let vars := slots.flatMap fun s => (listing d s).2
  let result := if vars.isEmpty then "return \x7b vars = \x7b\x7d \x7d"
    else "return \x7b vars = \x7b " ++ ", ".intercalate vars ++ " \x7d \x7d"
  unlines ["function(self, info_queue, card)", indent 1 (unlines (locals ++ [result])), "end"]

end Storage

end JokerRules
