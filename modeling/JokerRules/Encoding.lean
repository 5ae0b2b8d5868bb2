import JokerRules.Number.Decimal
import JokerRules.Text.Parser

/-!
The two encodings that a text parameter may carry in place of a number: a reading of the game's
state and a random draw. Fields are divided by bars; a field that is no number falls back to its
default.
-/

namespace JokerRules

inductive Encoding
  /-- `GAMEVAR:id|multiplier|offset` -/
  | gameState (id : String) (multiplier offset : Binary64)
  /-- `RANGE:min|max` -/
  | range (min max : Binary64)
deriving DecidableEq

/-- Where reading an encoding stopped, in bytes from the front of the trimmed text, and what would
have gone on. -/
structure EncodingError where
  input : String
  offset : Nat
  expected : String
deriving DecidableEq

def EncodingError.message (e : EncodingError) : String :=
  s!"malformed encoding '{e.input}' at column {e.offset + 1}: expected {e.expected}"

namespace Encoding

def gameStateMark : String := "GAMEVAR:"

def rangeMark : String := "RANGE:"

/-- Whether the text claims to be an encoding. -/
def isMarked (raw : String) : Bool :=
  let text := String.ofList (Text.trimStart raw.toList)
  Text.startsWith gameStateMark text || Text.startsWith rangeMark text

open Text (Parser)

/-- A numeric field; nothing if it is no number. -/
def number : Parser (Option Binary64) := do
  let field ← Parser.takeTill (· == '|') 0
  return Binary64.read? (Text.trim (String.ofList field))

def barredNumber : Parser (Option Binary64) := do
  Parser.fixed "|"
  number

def stateId : Parser String := do
  let field ← (Parser.takeTill (· == '|') 1).check fun field => Text.trim (String.ofList field) != ""
  return Text.trim (String.ofList field)

/-- Fields after the third are ignored. -/
def gameStateForm : Parser Encoding := do
  Parser.fixed gameStateMark
  let id ← stateId.commit.expecting "game variable id"
  let multiplier ← barredNumber.optional
  let offset ← barredNumber.optional
  Parser.skipRest
  return gameState id (multiplier.join.getD (.ofInt 1)) (offset.join.getD (.ofInt 0))

def rangeForm : Parser Encoding := do
  Parser.fixed rangeMark
  let min ← number
  let max ← barredNumber.optional
  Parser.skipRest
  return range (min.getD (.ofInt 1)) (max.join.getD (.ofInt 5))

def form : Parser Encoding :=
  (gameStateForm.orElse rangeForm).expecting "GAMEVAR: or RANGE: encoding"

def parse (raw : String) : Except EncodingError Encoding :=
  let text := Text.trim raw
  match form.whole text.toList with
  | .done encoding _ => .ok encoding
  | .failed _ rest expected => .error {
      input := text
      offset := text.utf8ByteSize - (String.ofList rest).utf8ByteSize
      expected := expected.head?.getD "a value encoding" }

end Encoding

end JokerRules
