import JokerRules.Text.Blank

/-!
Descriptions broken into the lines of a card. Tags in braces take no room, and the mark `[s]` or a
line feed ends a paragraph.
-/

namespace JokerRules.Description

/-- The number of characters outside tags. -/
def widthFrom (inTag : Bool) : List Char → Nat
  | [] => 0
  | c :: cs =>
    if c = '\x7b' then widthFrom true cs
    else if inTag then widthFrom (c != '\x7d') cs
    else widthFrom false cs + 1

def wordWidth (word : List Char) : Nat :=
  widthFrom false word

/-- Fills lines greedily. `line` holds the words of the line at hand, the last one first, and `used`
its width. -/
def fill (width : Nat) (line : List (List Char)) (used : Nat) :
    List (List Char) → List (List (List Char))
  | [] => [line.reverse]
  | w :: ws =>
    if used + 1 + wordWidth w > width then line.reverse :: fill width [w] (wordWidth w) ws
    else fill width (w :: line) (used + 1 + wordWidth w) ws

def joinWords (words : List (List Char)) : String :=
  " ".intercalate (words.map String.ofList)

/-- The lines of a paragraph; a blank one has an empty line. -/
def paragraphLines (width : Nat) (paragraph : List Char) : List String :=
  match Text.words paragraph with
  | [] => [""]
  | w :: ws => (fill width [w] (wordWidth w) ws).map joinWords

/-- Turns every mark `[s]` into a line feed. -/
def breakMarks : List Char → List Char
  | '[' :: 's' :: ']' :: cs => '\n' :: breakMarks cs
  | c :: cs => c :: breakMarks cs
  | [] => []

def isBlankText (cs : List Char) : Bool :=
  cs.all Text.isBlank

/-- Leaves out the blank paragraphs at both ends. -/
def trimParagraphs (ps : List (List Char)) : List (List Char) :=
  ((ps.dropWhile isBlankText).reverse.dropWhile isBlankText).reverse

def paragraphs (text : String) : List (List Char) :=
  trimParagraphs (Text.splitWhere (· == '\n') (breakMarks text.toList))

/-- The lines of a text, none wider than `width` unless a single word is. -/
def wrap (text : String) (width : Nat) : List String :=
  (paragraphs text).flatMap (paragraphLines (max width 1))

end JokerRules.Description
