import JokerRules.Keyed

/-!
Names given out in series: the first name of a stem is the stem itself, the second ends in 2, and so
on. The counts have no bound; counted in 32 bits, the names are the same up to `2 ^ 32 - 1` of a stem.
-/

namespace JokerRules

/-- How many names of each stem have been given out. -/
abbrev Names := Keyed Nat

namespace Names

/-- The `n`-th name of a stem, counted from 1. -/
def nth (stem : String) (n : Nat) : String :=
  if n = 1 then stem else stem ++ toString n

def next (names : Names) (stem : String) : String × Names :=
  let n := names.getD stem 0 + 1
  (nth stem n, names.insert stem n)

end Names

/-- Computations that take names. -/
abbrev Naming := StateM Names

def fresh (stem : String) : Naming String :=
  modifyGet fun names => names.next stem

end JokerRules
