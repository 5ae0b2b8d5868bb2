import JokerRules.Text.Blank

/-!
Identifiers made from authored text. Every spelling of a name that differs only in case, in blanks,
in dashes or in dropped signs gives one identifier.
-/

namespace JokerRules.Text

/-- What a character contributes: letters and digits in lower case, a separator as an underscore. -/
def identifierChar? (c : Char) : Option Char :=
  if c.isAlphanum then some c.toLower
  else if c = '_' || c = '-' || isBlank c then some '_'
  else none

/-- Keeps one underscore of each run. -/
def squeeze : List Char → List Char
  | [] => []
  | c :: cs => if c = '_' && cs.head? = some '_' then squeeze cs else c :: squeeze cs

def isUnderscore (c : Char) : Bool :=
  c = '_'

def trimUnderscores (cs : List Char) : List Char :=
  ((cs.dropWhile isUnderscore).reverse.dropWhile isUnderscore).reverse

/-- A name cannot start with a digit, so one that would gets an underscore in front. -/
def guardDigit (cs : List Char) : List Char :=
  if cs.head?.any Char.isDigit then '_' :: cs else cs

/-- The identifier of an authored name; empty if the name has no letter and no digit. -/
def identifier (raw : String) : String :=
  String.ofList (guardDigit (trimUnderscores (squeeze (raw.toList.filterMap identifierChar?))))

end JokerRules.Text
