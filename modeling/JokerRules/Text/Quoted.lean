/-!
String literals of the generated code.
-/

namespace JokerRules.Text

/-- One character inside a literal that ends at `delimiter`. -/
def escapeChar (delimiter c : Char) : List Char :=
  if c = '\\' then ['\\', '\\']
  else if c = '\n' then ['\\', 'n']
  else if c = '\r' then ['\\', 'r']
  else if c = '\t' then ['\\', 't']
  else if c = delimiter then ['\\', c]
  else [c]

def quoteWith (delimiter : Char) (s : String) : String :=
  String.ofList (delimiter :: (s.toList.flatMap (escapeChar delimiter) ++ [delimiter]))

/-- A literal between double quotes. -/
def quote (s : String) : String :=
  quoteWith '"' s

/-- A literal between single quotes. -/
def singleQuoted (s : String) : String :=
  quoteWith '\'' s

end JokerRules.Text
