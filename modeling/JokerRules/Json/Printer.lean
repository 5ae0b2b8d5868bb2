import JokerRules.Json
import JokerRules.Number.Decimal

/-!
Writing JSON text on one line.
-/

namespace JokerRules.Json

def hexChar (n : Nat) : Char :=
  Char.ofNat (if n < 10 then 48 + n else 87 + n)

def writeChar (c : Char) : List Char :=
  if c = '"' then ['\\', '"']
  else if c = '\\' then ['\\', '\\']
  else if c.toNat < 0x20 then
    ['\\', 'u', '0', '0', hexChar (c.toNat / 16), hexChar (c.toNat % 16)]
  else [c]

def writeString (s : String) : String :=
  String.ofList ('"' :: (s.toList.flatMap writeChar ++ ['"']))

/-- A finite real always has a point. -/
def writeReal (x : Binary64) : String :=
  if x.isWhole then x.literal ++ ".0" else x.literal

mutual

def write : Json → String
  | null => "null"
  | bool b => if b then "true" else "false"
  | int n => toString n
  | real x => writeReal x
  | str s => writeString s
  | arr es => "[" ++ ",".intercalate (writeElements es) ++ "]"
  | obj ms => "\x7b" ++ ",".intercalate (writeMembers ms) ++ "\x7d"

def writeElements : List Json → List String
  | [] => []
  | e :: es => write e :: writeElements es

def writeMembers : List (String × Json) → List String
  | [] => []
  | (name, v) :: ms => (writeString name ++ ":" ++ write v) :: writeMembers ms

end

end JokerRules.Json
