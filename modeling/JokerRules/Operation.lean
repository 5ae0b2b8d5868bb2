import JokerRules.Value

/-!
The arithmetic that an effect applies to a quantity, as an assignment or as a change.
-/

namespace JokerRules

/-- Puts parentheses around an expression with a blank in it, unless it starts and ends
with some. -/
def parenthesised (expr : String) : String :=
  let cs := expr.toList
  if cs.contains ' ' && !(cs.head? == some '(' && cs.getLast? == some ')') then "(" ++ expr ++ ")"
  else expr

inductive Operation
  | add | subtract | set | multiply | divide
deriving DecidableEq, Repr

namespace Operation

def ofWord? (s : String) : Option Operation :=
  if s ∈ ["add", "increment", "increase", "plus"] then some add
  else if s ∈ ["subtract", "decrement", "decrease", "remove", "minus"] then some subtract
  else if s = "set" then some set
  else if s = "multiply" then some multiply
  else if s = "divide" then some divide
  else none

/-- The authored operation, or the default if there is none. -/
def ofParams (p : Params) (default : Operation) : Operation :=
  ((p.text? "operation").bind ofWord?).getD default

/-- The statement that applies the operation to a target. -/
def assignment (op : Operation) (target amount : String) : String :=
  let amount := parenthesised amount
  target ++ " = " ++ match op with
    | add => target ++ " + " ++ amount
    | subtract => target ++ " - " ++ amount
    | set => amount
    | multiply => target ++ " * " ++ amount
    | divide => target ++ " / " ++ amount

/-- The change that the operation makes to the current value. -/
def change (op : Operation) (current amount : String) : String :=
  let amount := parenthesised amount
  match op with
  | add => amount
  | subtract => "-" ++ amount
  | set => amount ++ " - " ++ current
  | multiply => current ++ " * (" ++ amount ++ " - 1)"
  | divide => current ++ " / " ++ amount ++ " - " ++ current

/-- What stands before the amount in a status message. -/
def sign : Operation → String
  | add => "+" | subtract => "-" | set => "=" | multiply => "X" | divide => "/"

end Operation

end JokerRules
