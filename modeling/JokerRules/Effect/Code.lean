import JokerRules.Effect
import JokerRules.Names
import JokerRules.Output

/-!
Pieces of code that many effects use: seeds, events and random choices.
-/

namespace JokerRules

/-- The seed of a random choice of the effect. -/
def Effect.seed (e : Effect) (stem : String) : String :=
  Text.singleQuoted (stem ++ "_" ++ Text.identifier e.id)

/-- Code that waits in the game's queue of events. -/
def event (code : String) : String :=
  "G.E_MANAGER:add_event(Event(\x7b\n" ++ Text.indent 1 ("func = " ++ Text.closure code) ++
    "\n\x7d))"

/-- A random element of a list held by a variable or written out. -/
def randomElement (list seed : String) : String :=
  "pseudorandom_element(" ++ list ++ ", pseudoseed(" ++ seed ++ "))"

/-- A random choice among quoted names. -/
def randomName (names : List String) (seed : String) : String :=
  randomElement ("\x7b " ++ ", ".intercalate (names.map Text.singleQuoted) ++ " \x7d") seed

end JokerRules
