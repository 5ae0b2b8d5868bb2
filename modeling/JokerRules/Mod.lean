import JokerRules.Mod.Definition

/-!
Whole mods: all items are compiled first, then the overrides that they ask for.
-/

namespace JokerRules

structure Mod where
  overrides : List String
  items : List Definition
  /-- The cells of the atlas in use, overlays included. -/
  atlasCells : Nat
deriving DecidableEq

namespace Mod

/-- The first slug that occurs a second time; items without a slug do not count. -/
def firstRepeat? (seen : List String) : List String → Option String
  | [] => none
  | slug :: rest =>
    if slug = "" then firstRepeat? seen rest
    else if seen.contains slug then some slug
    else firstRepeat? (slug :: seen) rest

/-- Compiles items in order, each in the next cells of the atlas. -/
def definitions (settings : ModSettings) (atlas : Atlas) :
    List Item → Except ItemFault (List Definition × Atlas)
  | [] => .ok ([], atlas)
  | item :: rest =>
    let (cell, atlas) := atlas.take item.hasOverlay
    match Definition.compile item cell settings with
    | .error e => .error e
    | .ok definition =>
      match definitions settings atlas rest with
      | .error e => .error e
      | .ok (ds, atlas) => .ok (definition :: ds, atlas)

/-- Compiles a mod, or gives the first fault: a repeated key, or else that of the first
faulty item. -/
def compile (items : List Item) (settings : ModSettings) : Except ItemFault Mod :=
  match firstRepeat? [] (items.map (·.slug)) with
  | some slug => .error (.duplicateKey slug)
  | none =>
    match definitions settings (.ofColumns settings.columns) items with
    | .error e => .error e
    | .ok (ds, atlas) => .ok {
        overrides := Override.overrides (ds.flatMap (·.requests))
        items := ds
        atlasCells := atlas.used }

/-- The source text of the mod. -/
def source (m : Mod) : String :=
  "\n\n".intercalate (m.overrides ++ m.items.map (·.source)) ++ "\n"

end Mod

end JokerRules
