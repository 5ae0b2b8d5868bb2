import JokerRules.Number.Decimal
import JokerRules.Text.Blank
import JokerRules.Text.Case

/-!
Ranks, suits and the keys of game objects.
-/

namespace JokerRules

inductive Rank
  | two | three | four | five | six | seven | eight | nine | ten | jack | queen | king | ace
deriving DecidableEq, Repr

namespace Rank

/-- All ranks, lowest first. -/
def all : List Rank :=
  [two, three, four, five, six, seven, eight, nine, ten, jack, queen, king, ace]

/-- The game's number for a rank: pips, then 11 to 14. -/
def id : Rank → Nat
  | two => 2 | three => 3 | four => 4 | five => 5 | six => 6 | seven => 7 | eight => 8
  | nine => 9 | ten => 10 | jack => 11 | queen => 12 | king => 13 | ace => 14

/-- The name by which a card's base is changed. -/
def key : Rank → String
  | two => "2" | three => "3" | four => "4" | five => "5" | six => "6" | seven => "7"
  | eight => "8" | nine => "9" | ten => "10" | jack => "Jack" | queen => "Queen"
  | king => "King" | ace => "Ace"

/-- The letter in the key of a card front. -/
def letter : Rank → String
  | two => "2" | three => "3" | four => "4" | five => "5" | six => "6" | seven => "7"
  | eight => "8" | nine => "9" | ten => "T" | jack => "J" | queen => "Q" | king => "K"
  | ace => "A"

/-- The pip ranks by number, written with any leading zeros and a plus sign if wanted. -/
def ofPips? (s : String) : Option Rank :=
  let ds := match s.toList with
    | '+' :: cs => cs
    | cs => cs
  if ds.isEmpty || !ds.all Char.isDigit then none
  else match digitsValue ds with
    | 2 => some two | 3 => some three | 4 => some four | 5 => some five | 6 => some six
    | 7 => some seven | 8 => some eight | 9 => some nine
    | _ => none

/-- Reads any of the spellings of a rank, in any case and with blanks around it. -/
def parse? (raw : String) : Option Rank :=
  let s := Text.lowerAscii (Text.trim raw)
  if s ∈ ["a", "ace", "14", "1"] then some ace
  else if s ∈ ["k", "king", "13"] then some king
  else if s ∈ ["q", "queen", "12"] then some queen
  else if s ∈ ["j", "jack", "11"] then some jack
  else if s ∈ ["t", "ten", "10"] then some ten
  else ofPips? s

end Rank

inductive Suit
  | spades | hearts | clubs | diamonds
deriving DecidableEq, Repr

namespace Suit

def all : List Suit := [spades, hearts, clubs, diamonds]

def name : Suit → String
  | spades => "Spades" | hearts => "Hearts" | clubs => "Clubs" | diamonds => "Diamonds"

def letter : Suit → String
  | spades => "S" | hearts => "H" | clubs => "C" | diamonds => "D"

def parse? (raw : String) : Option Suit :=
  let s := Text.lowerAscii (Text.trim raw)
  if s ∈ ["spades", "spade", "s"] then some spades
  else if s ∈ ["hearts", "heart", "h"] then some hearts
  else if s ∈ ["clubs", "club", "c"] then some clubs
  else if s ∈ ["diamonds", "diamond", "d"] then some diamonds
  else none

end Suit

/-- The trimmed key with the mark of its family in front, if it does not carry it already. -/
def familyKey (family key : String) : String :=
  let key := Text.trim key
  if Text.startsWith family key then key else family ++ key

end JokerRules
