import JokerRules.Chance
import Mathlib.Data.List.Basic

/-! The blocks of random groups as data. A block has statements that run before everything else and
calls; with a retrigger it returns a table, whose function makes the calls. A group that has any
code has a block, so it never gives up once its odds are shared. -/

namespace JokerRules

open Text

/-- The status message of an output, with its colour. -/
structure Notice where
  message : String
  colour : String
deriving DecidableEq

def Notice.entries (n : Notice) : List String :=
  ["message = " ++ n.message, "colour = " ++ n.colour]

/-- The entries and the status message that one table holds. -/
structure Record where
  entries : List String
  notice : Option Notice
deriving DecidableEq

def Record.texts (r : Record) : List String :=
  r.entries ++ r.notice.elim [] Notice.entries

inductive Call
  /-- Has the game evaluate a table. -/
  | evaluate (r : Record)
  | run (code : String)
  | announce (n : Notice)
deriving DecidableEq

def Call.text : Call → String
  | evaluate r => "SMODS.calculate_effect(" ++ Output.inlineTable r.texts ++ ", card)"
  | run code => code
  | announce n => "card_eval_status_text(card, 'extra', nil, nil, nil, " ++
      Output.inlineTable n.entries ++ ")"

/-- A block that runs if a roll succeeds. The calls are made by the returned table, if there
is one. -/
structure RolledBlock where
  test : String
  hoisted : List String
  returned : Option Record
  calls : List Call

namespace RolledBlock

def body (b : RolledBlock) : List String :=
  let calls := b.calls.map Call.text
  match b.returned with
  | none => calls
  | some r =>
    let func := if calls.isEmpty then [] else ["func = " ++ closure (unlines calls)]
    ["return " ++ table (r.texts ++ func)]

def text (b : RolledBlock) : String :=
  unlines ["if " ++ b.test ++ " then", indent 1 (unlines (b.hoisted ++ b.body)), "end"]

end RolledBlock

namespace Output

def notice? (o : Output) : Option Notice :=
  o.message.map fun message => ⟨message, o.colour⟩

def calls (o : Output) : List Call :=
  match o.body with
  | .fields entries => [.evaluate ⟨entries, o.notice?⟩]
  | .closure code => .run code :: o.notice?.toList.map .announce
  | .messageOnly => o.notice?.toList.map .announce

def record (o : Output) : Record where
  entries := match o.body with
    | .fields entries => entries
    | _ => []
  notice := o.notice?

theorem statusEntries_eq (o : Output) : o.statusEntries = o.notice?.elim [] Notice.entries := by
  unfold statusEntries notice?
  cases o.message <;> rfl

theorem status_eq (o : Output) :
    o.status = (o.notice?.toList.map Call.announce).map Call.text := by
  rw [status, statusEntries_eq]
  cases o.notice? <;> rfl

theorem statements_eq_calls (o : Output) : o.statements = o.calls.map Call.text := by
  unfold statements calls
  cases o.body with
  | fields entries =>
    dsimp only
    rw [statusEntries_eq]
    rfl
  | closure code => exact congrArg (code :: ·) o.status_eq
  | messageOnly => exact o.status_eq

theorem repeats_of_fields {o : Output} {entries : List String} (h : o.body = .fields entries) :
    o.repeats = entries.any (startsWith "repetitions = ") := by
  rw [repeats, h]

/-- A retrigger has entries, one of which makes it one. -/
theorem exists_fields_of_repeats {o : Output} (h : o.repeats = true) :
    ∃ entries, o.body = .fields entries ∧ entries.any (startsWith "repetitions = ") = true := by
  unfold repeats at h
  split at h
  · next entries hbody => exact ⟨entries, hbody, h⟩
  · cases h

end Output

def Bundle.block (b : Bundle) (test : String) : RolledBlock where
  test
  hoisted := b.hoisted
  returned := (b.outputs.find? (·.repeats)).map (·.record)
  calls := (b.outputs.filter (!·.repeats)).flatMap (·.calls)

theorem Bundle.statements?_eq (b : Bundle) (test : String) :
    b.statements? = some (b.block test).body := by
  have hcalls : (b.block test).calls.map Call.text =
      (b.outputs.filter (!·.repeats)).flatMap (·.statements) := by
    rw [block, List.map_flatMap]
    exact List.flatMap_congr fun o _ => o.statements_eq_calls.symm
  rw [RolledBlock.body, hcalls, statements?, block]
  cases hfind : b.outputs.find? (·.repeats) with
  | none => rfl
  | some o =>
    obtain ⟨entries, hbody, -⟩ := Output.exists_fields_of_repeats (List.find?_some hfind)
    simp [hbody, Output.record, Record.texts, Output.statusEntries_eq]

namespace RandomGroup

/-- The block of a group, unless none of its effects means anything. -/
def block? (g : RandomGroup) (t : Trigger) (registry : Registry) :
    StateM Draft (Option RolledBlock) := do
  let bundle ← Bundle.compile g.effects t registry
  if bundle.isEmpty then return none
  let odds ← modifyGet (·.shareOdds g.numerator g.denominator)
  return some (bundle.block (g.roll odds (← get).owner))

theorem compile_eq_block (g : RandomGroup) (t : Trigger) (registry : Registry) :
    g.compile t registry = Option.map RolledBlock.text <$> g.block? t registry := by
  simp only [compile, block?, map_bind]
  refine bind_congr fun bundle => ?_
  cases bundle.isEmpty with
  | true => rfl
  | false =>
    simp only [bundle.statements?_eq ""]
    rfl

end RandomGroup

end JokerRules
