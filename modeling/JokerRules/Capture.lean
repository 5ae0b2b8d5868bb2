import JokerRules.Amount
import JokerRules.Effect

/-!
Earlier values of variables. Writes to variables run before the returned table is built, so effects
of the same firing would read what was just written. A variable that is both read and written is
therefore captured in a local variable first.
-/

namespace JokerRules.Capture

/-- The variables that the effects write. -/
def writes (effects : List Effect) : NameSet :=
  NameSet.ofNames (effects.filterMap (·.target?))

/-- Parameters that choose something and never name a variable to be read. -/
def isStructural (key : String) : Bool :=
  key = "operation" || key = "variable_name"

/-- The variable that a parameter would name. -/
def readName? (entry : String × Value) : Option String :=
  match entry with
  | (key, .str s) =>
    if isStructural key || (Value.str s).number?.isSome then none
    else if Text.identifier s = "" then none
    else some (Text.identifier s)
  | _ => none

/-- The variables that the effects may read. -/
def reads (effects : List Effect) : NameSet :=
  NameSet.ofNames (effects.flatMap fun e => e.params.entries.filterMap readName?)

/-- The variables that have to be captured, in order. -/
def conflicts (effects : List Effect) : List String :=
  (reads effects).keys.filter (NameSet.contains (writes effects))

/-- The local variable for a captured variable. -/
def localOf (name : String) : String :=
  name ++ "_value"

/-- The statements that capture. -/
def statements (effects : List Effect) : List String :=
  (conflicts effects).map fun name => "local " ++ localOf name ++ " = " ++ Slot.read name

def captures (effects : List Effect) : Captures :=
  Keyed.ofList ((conflicts effects).map fun name => (name, localOf name))

end JokerRules.Capture
