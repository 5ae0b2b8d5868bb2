import JokerRules.Condition
import JokerRules.Effect
import JokerRules.Trigger

/-!
Rules: a trigger with its conditions, its effects and its chances.
-/

namespace JokerRules

/-- Effects that happen together with a chance of `numerator` in `denominator`. -/
structure RandomGroup where
  id : String
  numerator : UInt32
  denominator : UInt32
  effects : List Effect := []
deriving DecidableEq

namespace RandomGroup

/-- A group with a proper denominator: zero is taken for one. -/
def ofOdds (id : String) (numerator denominator : UInt32) (effects : List Effect) : RandomGroup :=
  ⟨id, numerator, if denominator = 0 then 1 else denominator, effects⟩

def changesOdds (g : RandomGroup) : Bool :=
  g.effects.any (·.kind.changesOdds)

end RandomGroup

structure Rule where
  id : String
  trigger : Trigger
  conditionGroups : List ConditionGroup := []
  effects : List Effect := []
  randomGroups : List RandomGroup := []
deriving DecidableEq

namespace Rule

def hasAnyCondition (r : Rule) : Bool :=
  r.conditionGroups.any fun g => !g.conditions.isEmpty

/-- All effects of a rule, those of its random groups last. -/
def everyEffect (r : Rule) : List Effect :=
  r.effects ++ r.randomGroups.flatMap (·.effects)

def repeatsCards (r : Rule) : Bool :=
  r.everyEffect.any (·.kind.repeatsCard)

end Rule

end JokerRules
