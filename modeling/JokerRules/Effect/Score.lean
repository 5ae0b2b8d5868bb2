import JokerRules.Effect.Code
import JokerRules.Effect.Generator

/-!
Effects that are entries of the returned table.
-/

namespace JokerRules

/-- An entry that holds an amount. -/
structure ScoreField where
  key : String
  stem : String
  fallback : Value
  colour : String

namespace ScoreField

/-- Fallback for factors. -/
def oneAndAHalf : Value := .real (.nearest false 3 2)

/-- Fallback for exponents. -/
def oneAndATenth : Value := .real (.nearest false 11 10)

def chips : ScoreField := ⟨"chips", "chips", .int 10, Colour.chips⟩
def mult : ScoreField := ⟨"mult", "mult", .int 4, Colour.mult⟩
def xMult : ScoreField := ⟨"Xmult", "xmult", oneAndAHalf, Colour.mult⟩
def xChips : ScoreField := ⟨"x_chips", "xchips", oneAndAHalf, Colour.chips⟩
def expMult : ScoreField := ⟨"e_mult", "emult", oneAndATenth, Colour.darkEdition⟩
def expChips : ScoreField := ⟨"e_chips", "echips", oneAndATenth, Colour.darkEdition⟩
def dollars : ScoreField := ⟨"dollars", "dollars", .int 5, Colour.money⟩

def output (f : ScoreField) (v : String) : Output :=
  { body := .fields [f.key ++ " = " ++ v], colour := f.colour }

end ScoreField

namespace Effect

def score (e : Effect) (f : ScoreField) : Generator Output := do
  return f.output (← e.amount f.stem f.fallback)

def retriggerOutput (v : String) : Output where
  body := .fields ["repetitions = " ++ v]
  message := some "localize('k_again_ex')"
  colour := Colour.orange

/-- More passes over the card, where the trigger has a repetition pass. -/
def retrigger (e : Effect) : Generator Output := do
  unless (← Generator.trigger).hasRepetition do failure
  return retriggerOutput (← e.amount "repetitions" (.int 1))

def showMessage (e : Effect) : Output where
  body := .messageOnly
  message := some (Text.quote (e.params.textOr "text" "Hello!"))
  colour := Colour.named (e.params.textOr "colour" "white")

def balance : Output where
  body := .fields ["balance = true"]
  colour := Colour.purple

def swapChipsMult : Output where
  body := .fields ["swap = true"]
  message := some "localize('k_swapped_ex')"
  colour := Colour.purple

def savedOutput : Output where
  body := .fields ["saved = true"]
  message := some "localize('k_saved_ex')"
  colour := Colour.red

/-- Saves a lost round, which can only be known when the round ends. -/
def savedFromDeath : Generator Output := do
  unless (← Generator.trigger) = .roundEnd do failure
  return savedOutput

end Effect

end JokerRules
