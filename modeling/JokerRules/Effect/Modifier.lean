import JokerRules.Card
import JokerRules.Effect.Code

/-!
Calls that give a card an edition, an enhancement or a seal. The card is named by a variable.
-/

namespace JokerRules.Effect

open Text

/-- Sets the edition authored under a key, unless there is none. -/
def setEdition? (e : Effect) (card key : String) : Option String :=
  (e.params.text? key).bind fun raw =>
    if raw = "none" then none
    else if raw = "random" then
      let id := identifier e.id
      some s!"{card}:set_edition(poll_edition('edition_{id}', nil, true, true), true)"
    else
      let edition := quote (familyKey "e_" (lowerAscii raw))
      some s!"{card}:set_edition({edition}, true)"

/-- The centre of an enhancement. -/
def centre (raw : String) : String :=
  "G.P_CENTERS." ++ familyKey "m_" (lowerAscii raw)

def setEnhancement (card raw seed : String) : String :=
  let choice := lowerAscii raw
  if choice = "none" then card ++ ":set_ability(G.P_CENTERS.c_base)"
  else if choice = "random" then
    card ++ ":set_ability(SMODS.poll_enhancement(\x7b guaranteed = true, key = " ++ seed ++
      " \x7d))"
  else card ++ ":set_ability(" ++ centre raw ++ ")"

/-- A seal's name starts with a capital. -/
def sealName (raw : String) : String :=
  match (lowerAscii raw).toList with
  | [] => ""
  | c :: cs => String.ofList (c.toUpper :: cs)

def setSeal (card raw seed : String) : String :=
  let choice := lowerAscii raw
  if choice = "none" then card ++ ":set_seal(nil)"
  else if choice = "random" then
    card ++ ":set_seal(SMODS.poll_seal(\x7b guaranteed = true, key = " ++ seed ++ " \x7d), true)"
  else card ++ ":set_seal(" ++ quote (sealName raw) ++ ", true)"

end JokerRules.Effect
