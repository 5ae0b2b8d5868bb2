import JokerRules.GameVariable
import JokerRules.Text.Identifier

/-!
Settings that all items of a mod share. The number of columns and the width of lines are natural
numbers; those that fit in 32 bits, or in a machine word for the width, are the ones a mod can set.
-/

namespace JokerRules

structure ModSettings where
  /-- The mod's part in the keys of its items. -/
  mark : String := "custom"
  atlasKey : String := "CustomJokers"
  columns : Nat := 10
  wrapWidth : Nat := 28
  registry : Registry := Registry.builtin

namespace ModSettings

def withMark (c : ModSettings) (mark : String) : ModSettings :=
  { c with mark := Text.identifier mark }

def withAtlas (c : ModSettings) (key : String) : ModSettings :=
  { c with atlasKey := key }

def withColumns (c : ModSettings) (columns : Nat) : ModSettings :=
  { c with columns := max columns 1 }

def withWrapWidth (c : ModSettings) (width : Nat) : ModSettings :=
  { c with wrapWidth := max width 1 }

def withRegistry (c : ModSettings) (registry : Registry) : ModSettings :=
  { c with registry }

/-- The key in the game of the item with a given slug. -/
def itemKey (c : ModSettings) (slug : String) : String :=
  "j_" ++ c.mark ++ "_" ++ slug

end ModSettings

end JokerRules
