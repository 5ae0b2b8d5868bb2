import JokerRules.Text.Blank

/-!
Layout of the generated code: indentation, table constructors and function bodies.
-/

namespace JokerRules.Text

/-- The indentation of a level: four spaces for each level around it. -/
def padding (depth : Nat) : List Char :=
  List.replicate (4 * depth) ' '

/-- A line moved in by `depth` levels; a blank line becomes empty. -/
def indentLine (depth : Nat) (line : List Char) : List Char :=
  if line.all isBlank then [] else padding depth ++ line

def indent (depth : Nat) (text : String) : String :=
  unlines ((lines text.toList).map fun line => String.ofList (indentLine depth line))

/-- A table constructor with one entry a line. -/
def table (entries : List String) : String :=
  if entries.isEmpty then "\x7b\x7d"
  else "\x7b\n" ++ ",\n".intercalate (entries.map (indent 1)) ++ "\n\x7d"

/-- A function without parameters that runs `body` and returns `true`. -/
def closure (body : String) : String :=
  "function()\n" ++ indent 1 body ++ "\n    return true\nend"

end JokerRules.Text
