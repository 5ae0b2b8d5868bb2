import JokerRules.Item
import JokerRules.Text.Case
import JokerRules.Text.Layout

/-!
What a compiled effect contributes to the code of a rule.
-/

namespace JokerRules

namespace Colour

def chips : String := "G.C.CHIPS"
def mult : String := "G.C.MULT"
def money : String := "G.C.MONEY"
def red : String := "G.C.RED"
def blue : String := "G.C.BLUE"
def green : String := "G.C.GREEN"
def purple : String := "G.C.PURPLE"
def orange : String := "G.C.ORANGE"
def filter : String := "G.C.FILTER"
def white : String := "G.C.WHITE"
def darkEdition : String := "G.C.DARK_EDITION"
def tarot : String := "G.C.SECONDARY_SET.Tarot"
def planet : String := "G.C.SECONDARY_SET.Planet"
def spectral : String := "G.C.SECONDARY_SET.Spectral"

/-- The colour of an authored name, white if there is none. -/
def named (name : String) : String :=
  let s := Text.lowerAscii name
  if s ∈ ["red", "mult"] then red
  else if s ∈ ["blue", "chips"] then blue
  else if s = "green" then green
  else if s = "purple" then purple
  else if s = "orange" then orange
  else if s ∈ ["gold", "money", "yellow"] then money
  else if s = "edition" then darkEdition
  else if s = "tarot" then tarot
  else if s = "planet" then planet
  else if s = "spectral" then spectral
  else white

end Colour

inductive Body
  /-- Entries of the returned table. -/
  | fields (entries : List String)
  /-- Statements that run when the table is evaluated. -/
  | closure (code : String)
  /-- Nothing but a status message. -/
  | messageOnly
deriving DecidableEq

structure Output where
  body : Body
  /-- An expression for the status message. -/
  message : Option String := none
  colour : String := Colour.white
  /-- Statements that run before the returned table is built. -/
  hoisted : List String := []
  /-- Slots that have to be declared for the effect. -/
  newSlots : List Slot := []
deriving DecidableEq

namespace Output

/-- The table entries of the status message. -/
def statusEntries (o : Output) : List String :=
  match o.message with
  | some message => ["message = " ++ message, "colour = " ++ o.colour]
  | none => []

/-- Replaces the status message by an authored one, which takes the place of the message that the
game shows for table entries. -/
def announce (o : Output) (text : String) : Output :=
  { o with
    message := some (Text.quote text)
    body := match o.body with
      | .fields entries => .fields (entries ++ ["remove_default_message = true"])
      | body => body }

end Output

end JokerRules
