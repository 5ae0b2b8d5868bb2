import JokerRules.Effect.Compile

/-!
The table that a firing returns. The game shows one status message for each level, so every effect
after the first stands one level deeper. Random blocks run from the outermost level.
-/

namespace JokerRules

open Text

structure TableLevel where
  entries : List String := []
  /-- Statements that run when the level is evaluated. -/
  code : List String := []
deriving DecidableEq

namespace TableLevel

def ofOutput (o : Output) : TableLevel :=
  match o.body with
  | .fields entries => { entries := entries ++ o.statusEntries }
  | .closure code => { entries := o.statusEntries, code := [code] }
  | .messageOnly => { entries := o.statusEntries }

def isEmpty (l : TableLevel) : Bool :=
  l.entries.isEmpty && l.code.isEmpty

/-- The table of a level around that of the next. -/
def render (l : TableLevel) (inner : Option String) : String :=
  let func := if l.code.isEmpty then [] else ["func = " ++ closure (unlines l.code)]
  let extra := inner.toList.map fun table => "extra = " ++ table
  table (l.entries ++ func ++ extra)

/-- The tables of a chain of levels, each inside the one before. -/
def chain? : List TableLevel → Option String
  | [] => none
  | l :: ls => some (l.render (chain? ls))

end TableLevel

/-- The levels of those outputs that have any content. -/
def contentLevels (outputs : List Output) : List TableLevel :=
  (outputs.map TableLevel.ofOutput).filter fun l => !l.isEmpty

/-- The returned table, if there is anything to return. -/
def firingTable? (outputs : List Output) (blocks : List String) : Option String :=
  match contentLevels outputs with
  | [] => if blocks.isEmpty then none else TableLevel.chain? [{ code := blocks }]
  | l :: ls => TableLevel.chain? ({ l with code := l.code ++ blocks } :: ls)

/-- The code of one firing: the statements before the table, then the table, or the random blocks
themselves if there is no table. -/
def Bundle.code? (b : Bundle) (blocks : List String) : Option String :=
  let result := if (contentLevels b.outputs).isEmpty then blocks
    else (firingTable? b.outputs blocks).toList.map fun table => "return " ++ table
  let statements := b.hoisted ++ result
  if statements.isEmpty then none else some (unlines statements)

end JokerRules
