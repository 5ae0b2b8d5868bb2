import JokerRules.Condition

/-!
Guards: boolean terms folded from the left into one expression. Every step of the fold has its own
parentheses, so the guard reads from left to right whatever binds tighter.
-/

namespace JokerRules

structure Term where
  expr : String
  next : Joiner := .and
deriving DecidableEq

structure TermGroup where
  terms : List Term
  next : Joiner := .and
deriving DecidableEq

namespace Guard

/-- Joins further terms to an expression; each term says how the one after it is joined. -/
def joinFrom (expr : String) (next : Joiner) : List Term → String
  | [] => expr
  | t :: ts => joinFrom ("(" ++ expr ++ " " ++ next.word ++ " " ++ t.expr ++ ")") t.next ts

/-- The left fold of the terms, if there are any. -/
def join? : List Term → Option String
  | [] => none
  | t :: ts => some (joinFrom t.expr t.next ts)

/-- A group with terms, as one term. -/
def groupTerm? (g : TermGroup) : Option Term :=
  (join? g.terms).map fun expr => ⟨expr, g.next⟩

/-- Folds the terms of each group, then the groups that have terms. -/
def fold? (groups : List TermGroup) : Option String :=
  join? (groups.filterMap groupTerm?)

end Guard

end JokerRules
