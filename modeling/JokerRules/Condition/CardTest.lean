import JokerRules.Card
import JokerRules.Text.Quoted
import JokerRules.Trigger
import JokerRules.Value

/-!
Tests on playing cards, as expressions over a variable that holds the card, and the areas in which
cards are looked for.
-/

namespace JokerRules.CardTest

/-- A rank by any spelling, or a face card. -/
def rank? (card raw : String) : Option String :=
  let choice := Text.lowerAscii raw
  if choice = "face" then some (card ++ ":is_face()")
  else if choice = "any" then none
  else (Rank.parse? raw).map fun r => card ++ ":get_id() == " ++ toString r.id

/-- A suit, or the two suits of a colour. -/
def suit? (card raw : String) : Option String :=
  let isSuit (s : Suit) := card ++ ":is_suit(" ++ Text.quote s.name ++ ")"
  let choice := Text.lowerAscii raw
  if choice = "red" then some ("(" ++ isSuit .hearts ++ " or " ++ isSuit .diamonds ++ ")")
  else if choice = "black" then some ("(" ++ isSuit .spades ++ " or " ++ isSuit .clubs ++ ")")
  else (Suit.parse? raw).map isSuit

def enhancementTest (card raw : String) : String :=
  if raw = "any" then "next(SMODS.get_enhancements(" ++ card ++ "))"
  else if raw = "none" then "not next(SMODS.get_enhancements(" ++ card ++ "))"
  else "SMODS.has_enhancement(" ++ card ++ ", " ++
    Text.quote (familyKey "m_" (Text.lowerAscii raw)) ++ ")"

def sealTest (card raw : String) : String :=
  if raw = "any" then card ++ ".seal ~= nil"
  else if raw = "none" then card ++ ".seal == nil"
  else card ++ ".seal == " ++ Text.quote raw

def editionTest (card raw : String) : String :=
  if raw = "any" then card ++ ".edition ~= nil"
  else if raw = "none" then card ++ ".edition == nil"
  else "(" ++ card ++ ".edition and " ++ card ++ ".edition.key == " ++
    Text.quote (familyKey "e_" (Text.lowerAscii raw)) ++ ")"

/-- The test named by the first of the four filters that is set: no test if none is set or if the
filter's text means nothing. -/
def filter? (card : String) (p : Params) : Option String :=
  match p.text? "suit", p.text? "rank", p.text? "enhancement", p.text? "seal" with
  | some raw, _, _, _ => suit? card raw
  | none, some raw, _, _ => rank? card raw
  | none, none, some raw, _ => some (enhancementTest card raw)
  | none, none, none, some raw => some (sealTest card raw)
  | none, none, none, none => none

/-- Counts the members of a list for which the test on the loop variable holds. -/
def countWhere (element area test : String) : String :=
  "(function() local count = 0 for _, " ++ element ++ " in ipairs(" ++ area ++ ") do if " ++ test ++
    " then count = count + 1 end end return count end)()"

/-- The cards that a test on the hand looks at: the scored cards, all cards of the hand, or those
still held. -/
def cardsInScope? (p : Params) (t : Trigger) : Option String :=
  let scope := p.textOr "scope" "scoring"
  if scope = "held" then some "G.hand.cards"
  else if t.playsHand then
    some (if scope = "all" then "context.full_hand" else "context.scoring_hand")
  else if t.discardsHand then some "context.full_hand"
  else none

end JokerRules.CardTest
