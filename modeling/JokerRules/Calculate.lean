import JokerRules.Chance
import JokerRules.Condition.Guard
import JokerRules.Firing
import JokerRules.Rule

/-!
The function that the game calls on every event. Rules under one guard on the event share a block.
Inside it the rules with conditions make a chain of branches in authored order; the others are
merged into its last branch.
-/

namespace JokerRules

open Text

namespace Rule

/-- The guard under which the rule fires. Saving a lost round happens where the game is over. -/
def firingTest? (r : Rule) : Option String :=
  if r.trigger = .roundEnd && r.everyEffect.any (·.kind == .savedFromDeath) then
    some "context.end_of_round and context.game_over and context.main_eval"
  else r.trigger.eventTest? (r.repeatsCards && r.trigger.hasRepetition)

/-- Whether the rule changes the state of the card itself, which copies of it must not do. -/
def changesCard (r : Rule) : Bool :=
  r.everyEffect.any fun e => e.kind == .modifyInternalVariable || e.kind == .destroySelf

def guard? (r : Rule) (registry : Registry) : Option String :=
  JokerRules.guard? r.conditionGroups r.trigger registry

end Rule

namespace Calculate

def blocks (t : Trigger) (registry : Registry) : List RandomGroup → StateM Draft (List String)
  | [] => pure []
  | g :: gs => do
    let block ← g.compile t registry
    return block.toList ++ (← blocks t registry gs)

/-- The code of one firing. -/
def firing? (effects : List Effect) (groups : List RandomGroup) (t : Trigger)
    (registry : Registry) : StateM Draft (Option String) := do
  let bundle ← Bundle.compile effects t registry
  return bundle.code? (← blocks t registry groups)

/-- The guards and the code of the rules that have conditions. -/
def branches (registry : Registry) : List Rule → StateM Draft (List (String × String))
  | [] => pure []
  | r :: rs => do
    match r.guard? registry with
    | none => branches registry rs
    | some guard =>
      let code ← firing? r.effects r.randomGroups r.trigger registry
      return (code.toList.map fun c => (guard, c)) ++ (← branches registry rs)

/-- The code of the rules without conditions, taken together. -/
def fallback? (registry : Registry) (rules : List Rule) : StateM Draft (Option String) :=
  match rules.getLast? with
  | none => pure none
  | some last =>
    let free := rules.filter fun r => (r.guard? registry).isNone
    firing? (free.flatMap (·.effects)) (free.flatMap (·.randomGroups)) last.trigger registry

/-- The lines of all branches after the first. -/
def laterBranches (rest : List (String × String)) : List String :=
  rest.flatMap fun b => ["elseif " ++ b.1 ++ " then", indent 1 b.2]

/-- A chain of branches with a last one for when none of the guards holds. -/
def chain? (bs : List (String × String)) (fallback : Option String) : Option String :=
  match bs with
  | [] => fallback
  | (guard, code) :: rest =>
    let last := match fallback with
      | some code => ["else", indent 1 code]
      | none => []
    some (unlines (["if " ++ guard ++ " then", indent 1 code] ++ laterBranches rest ++ last ++
      ["end"]))

/-- The block of the rules under one guard on the event. -/
def block? (registry : Registry) (guard : String) (rules : List Rule) :
    StateM Draft (Option String) := do
  let bs ← branches registry rules
  let inner := chain? bs (← fallback? registry rules)
  let guard := if rules.any (·.changesCard) then guard ++ " and not context.blueprint" else guard
  return inner.map fun code => unlines ["if " ++ guard ++ " then", indent 1 code, "end"]

/-- The rules grouped by their guards on the event, in the order in which the guards first occur. -/
def byGuard (rules : List Rule) : List (String × List Rule) :=
  (rules.filterMap (·.firingTest?)).eraseDups.map fun guard =>
    (guard, rules.filter fun r => r.firingTest? == some guard)

def guardBlocks (registry : Registry) : List (String × List Rule) → StateM Draft (List String)
  | [] => pure []
  | (guard, rules) :: rest => do
    let block ← block? registry guard rules
    return block.toList ++ (← guardBlocks registry rest)

/-- The whole function, unless no rule has any code. -/
def compile (rules : List Rule) (registry : Registry) : StateM Draft (Option String) := do
  let blocks ← guardBlocks registry (byGuard (rules.filter (·.trigger != .passive)))
  if blocks.isEmpty then return none
  else return some (unlines ["function(self, card, context)", indent 1 (unlines blocks), "end"])

end Calculate

end JokerRules
