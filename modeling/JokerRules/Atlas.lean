/-!
The cells of the image atlas, handed out row by row. Columns and cells have no bound; numbered in 32
bits, they are the same as long as fewer than `2 ^ 32` cells are handed out.
-/

namespace JokerRules

structure AtlasPlace where
  x : Nat
  y : Nat
deriving DecidableEq, Repr

def AtlasPlace.literal (p : AtlasPlace) : String :=
  "\x7b x = " ++ toString p.x ++ ", y = " ++ toString p.y ++ " \x7d"

/-- The cells of an item: its face and, if it has one, its overlay in the cell after it. -/
structure AtlasCell where
  index : Nat
  pos : AtlasPlace
  overlay : Option AtlasPlace
deriving DecidableEq, Repr

structure Atlas where
  columns : Nat
  /-- How many cells have been handed out. -/
  used : Nat := 0
deriving DecidableEq, Repr

namespace Atlas

/-- An empty atlas; it has one column at least. -/
def ofColumns (columns : Nat) : Atlas :=
  { columns := max columns 1 }

def position (a : Atlas) (index : Nat) : AtlasPlace :=
  ⟨index % a.columns, index / a.columns⟩

def take (a : Atlas) (overlay : Bool) : AtlasCell × Atlas :=
  ({ index := a.used
     pos := a.position a.used
     overlay := if overlay then some (a.position (a.used + 1)) else none },
    { a with used := a.used + if overlay then 2 else 1 })

end Atlas

end JokerRules
