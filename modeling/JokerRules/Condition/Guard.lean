import JokerRules.Amount
import JokerRules.Condition.Subject
import JokerRules.Guard

/-!
The guard of a rule: its conditions as expressions, folded group by group.
-/

namespace JokerRules

/-- The expression of a subject, a quantity being compared as the parameters say. -/
def Subject.expr (s : Subject) (p : Params) (registry : Registry) : String :=
  match s with
  | .test expr => expr
  | .quantity expr fallback =>
    let comparison := ((p.text? "operator").bind Comparison.ofId?).getD .eq
    let value := Amount.ofOperand ((p.get? "value").getD (.int fallback)) registry
    expr ++ " " ++ comparison.sign ++ " " ++ value.expr

/-- The expression of a condition, if it means something under the trigger. -/
def Condition.expr? (c : Condition) (t : Trigger) (registry : Registry) : Option String :=
  (c.kind.subject? c.params t).map fun s =>
    let expr := s.expr c.params registry
    if c.negate then "not (" ++ expr ++ ")" else expr

/-- The conditions of a group that mean something. -/
def ConditionGroup.termGroup (g : ConditionGroup) (t : Trigger) (registry : Registry) :
    TermGroup :=
  ⟨g.conditions.filterMap fun c => (c.expr? t registry).map fun expr => ⟨expr, c.next⟩, g.next⟩

/-- The guard of condition groups; without one a rule fires whenever its trigger does. -/
def guard? (groups : List ConditionGroup) (t : Trigger) (registry : Registry) : Option String :=
  Guard.fold? (groups.map (·.termGroup t registry))

end JokerRules
