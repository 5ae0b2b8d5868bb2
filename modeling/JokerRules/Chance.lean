import JokerRules.Effect.Compile

/-!
Random groups. A group is a block guarded by a roll; its effects are statements, since the returned
table exists by the time the block runs. Only a retrigger has to be returned.
-/

namespace JokerRules

open Text

/-- The test whether a group happens. A group that changes the odds of the game rolls
without them. -/
def RandomGroup.roll (g : RandomGroup) (slot owner : String) : String :=
  let seed := singleQuoted ("group_" ++ identifier g.id)
  let numerator := toString g.numerator.toNat
  let odds := Slot.read slot
  if g.changesOdds then s!"pseudorandom({seed}) < {numerator} / {odds}"
  else
    let key := singleQuoted owner
    s!"SMODS.pseudorandom_probability(card, {seed}, {numerator}, {odds}, {key})"

namespace Output

def inlineTable (entries : List String) : String :=
  "\x7b " ++ ", ".intercalate entries ++ " \x7d"

/-- The statement that shows the status message. -/
def status (o : Output) : List String :=
  if o.statusEntries.isEmpty then []
  else ["card_eval_status_text(card, 'extra', nil, nil, nil, " ++
    inlineTable o.statusEntries ++ ")"]

/-- The statements that stand for an output outside a returned table. -/
def statements (o : Output) : List String :=
  match o.body with
  | .fields entries =>
    ["SMODS.calculate_effect(" ++ inlineTable (entries ++ o.statusEntries) ++ ", card)"]
  | .closure code => code :: o.status
  | .messageOnly => o.status

/-- Whether the output repeats a card. -/
def repeats (o : Output) : Bool :=
  match o.body with
  | .fields entries => entries.any (startsWith "repetitions = ")
  | _ => false

end Output

/-- The statements of a bundle: all of them, or a return of the first retrigger that runs the
others. Only table entries can be returned. -/
def Bundle.statements? (b : Bundle) : Option (List String) :=
  let calls := (b.outputs.filter (!·.repeats)).flatMap (·.statements)
  match b.outputs.find? (·.repeats) with
  | none => some calls
  | some o =>
    match o.body with
    | .fields entries =>
      let func := if calls.isEmpty then [] else ["func = " ++ closure (unlines calls)]
      some ["return " ++ table (entries ++ o.statusEntries ++ func)]
    | _ => none

/-- Compiles a group, unless none of its effects means anything. -/
def RandomGroup.compile (g : RandomGroup) (t : Trigger) (registry : Registry) :
    StateM Draft (Option String) := do
  let bundle ← Bundle.compile g.effects t registry
  if bundle.isEmpty then return none
  let odds ← modifyGet (·.shareOdds g.numerator g.denominator)
  let some statements := bundle.statements? | return none
  let roll := g.roll odds (← get).owner
  let code := indent 1 (unlines (bundle.hoisted ++ statements))
  return some (unlines [s!"if {roll} then", code, "end"])

end JokerRules
