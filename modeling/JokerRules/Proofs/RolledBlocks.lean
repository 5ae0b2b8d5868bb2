import JokerRules.Proofs.ReturnedTables

/-! The blocks of random groups. What the effects of a group contribute stands in different places
of its block: before everything else, in the returned table, in the function of this table, or in
statements of its own. Each contribution stands in one place once, apart from those of a second
retrigger, since a block can return one table only. -/

namespace JokerRules

open Text

/-- One contribution of an output. -/
inductive Piece
  | entry (text : String)
  | code (text : String)
  | notice (n : Notice)
deriving DecidableEq

def Record.pieces (r : Record) : List Piece :=
  r.entries.map .entry ++ r.notice.toList.map .notice

def Call.pieces : Call → List Piece
  | evaluate r => r.pieces
  | run code => [.code code]
  | announce n => [.notice n]

def RolledBlock.pieces (b : RolledBlock) : List Piece :=
  b.returned.toList.flatMap Record.pieces ++ b.calls.flatMap Call.pieces

namespace Output

def pieces (o : Output) : List Piece :=
  (match o.body with
    | .fields entries => entries.map .entry
    | .closure code => [.code code]
    | .messageOnly => []) ++ o.notice?.toList.map .notice

theorem pieces_calls (o : Output) : o.calls.flatMap Call.pieces = o.pieces := by
  unfold calls pieces
  cases o.body <;> cases o.notice? <;> simp [Call.pieces, Record.pieces]

theorem pieces_record {o : Output} (h : o.repeats = true) : o.record.pieces = o.pieces := by
  obtain ⟨entries, hbody, -⟩ := exists_fields_of_repeats h
  simp only [record, pieces, hbody, Record.pieces]

/-- A retrigger has at least the entry that makes it one. -/
theorem pieces_ne_nil {o : Output} (h : o.repeats = true) : o.pieces ≠ [] := by
  obtain ⟨entries, hbody, hany⟩ := exists_fields_of_repeats h
  obtain ⟨entry, hentry, -⟩ := List.any_eq_true.mp hany
  refine List.ne_nil_of_mem (a := .entry entry) ?_
  simp [pieces, hbody, hentry]

end Output

namespace Bundle

theorem pieces_block (b : Bundle) (test : String) :
    (b.block test).pieces =
      ((b.outputs.filter (·.repeats)).take 1).flatMap (·.pieces) ++
        (b.outputs.filter (!·.repeats)).flatMap (·.pieces) := by
  have hcalls : (b.block test).calls.flatMap Call.pieces =
      (b.outputs.filter (!·.repeats)).flatMap (·.pieces) := by
    rw [block, List.flatMap_assoc]
    exact List.flatMap_congr fun o _ => o.pieces_calls
  have hreturned : (b.block test).returned.toList.flatMap Record.pieces =
      ((b.outputs.filter (·.repeats)).take 1).flatMap (·.pieces) := by
    rw [block, List.take_one, List.head?_filter]
    cases hfind : b.outputs.find? (·.repeats) with
    | none => rfl
    | some o =>
      have hrepeats : o.repeats = true := List.find?_some hfind
      simp [Output.pieces_record hrepeats]
  rw [RolledBlock.pieces, hreturned, hcalls]

/-- The block lacks the retriggers after the first one, and nothing else. -/
theorem perm_pieces_block (b : Bundle) (test : String) :
    ((b.block test).pieces ++ ((b.outputs.filter (·.repeats)).drop 1).flatMap (·.pieces)).Perm
      (b.outputs.flatMap (·.pieces)) := by
  have hsplit : (b.outputs.filter (·.repeats) ++ b.outputs.filter (!·.repeats)).Perm b.outputs :=
    List.filter_append_perm _ _
  have hretriggers : (b.outputs.filter (·.repeats)).flatMap (·.pieces) =
      ((b.outputs.filter (·.repeats)).take 1).flatMap (·.pieces) ++
        ((b.outputs.filter (·.repeats)).drop 1).flatMap (·.pieces) := by
    rw [← List.flatMap_append, List.take_append_drop]
  refine List.Perm.trans ?_ (hsplit.flatMap_right _)
  rw [pieces_block, List.flatMap_append, hretriggers, List.append_assoc, List.append_assoc]
  exact List.perm_append_comm.append_left _

theorem perm_pieces_iff (b : Bundle) (test : String) :
    (b.block test).pieces.Perm (b.outputs.flatMap (·.pieces)) ↔
      b.outputs.countP (·.repeats) ≤ 1 := by
  have hall := b.perm_pieces_block test
  have hlength := hall.length_eq
  rw [List.length_append] at hlength
  rw [List.countP_eq_length_filter]
  constructor
  · intro hperm
    have hlost : ((b.outputs.filter (·.repeats)).drop 1).flatMap (·.pieces) = [] := by
      have hkept := hperm.length_eq
      exact List.length_eq_zero_iff.mp (by omega)
    by_contra hmany
    obtain ⟨o, ho⟩ := List.exists_mem_of_ne_nil ((b.outputs.filter (·.repeats)).drop 1)
      (fun hnil => hmany (List.drop_eq_nil_iff.mp hnil))
    have hrepeats := (List.mem_filter.mp (List.mem_of_mem_drop ho)).2
    exact Output.pieces_ne_nil hrepeats (List.flatMap_eq_nil_iff.mp hlost o ho)
  · intro hone
    rw [List.drop_eq_nil_of_le hone, List.flatMap_nil, List.append_nil] at hall
    exact hall

end Bundle

/-- The test of a group, rolled against its odds in the draft. -/
def RandomGroup.rollIn (g : RandomGroup) (d : Draft) : String :=
  let (odds, d) := d.shareOdds g.numerator g.denominator
  g.roll odds d.owner

theorem RandomGroup.run_compile (g : RandomGroup) (t : Trigger) (registry : Registry)
    (d : Draft) :
    let compiled := (Bundle.compile g.effects t registry).run d
    ((g.compile t registry).run d).1 =
      if compiled.1.isEmpty then none
      else some (compiled.1.block (g.rollIn compiled.2)).text := by
  intro compiled
  have hblock : ((g.block? t registry).run d).1 =
      if compiled.1.isEmpty then none else some (compiled.1.block (g.rollIn compiled.2)) := by
    simp only [block?, StateT.run_bind]
    change Prod.fst (StateT.run (m := Id) (if compiled.1.isEmpty then _ else _) compiled.2) = _
    cases compiled.1.isEmpty <;> rfl
  have hcompile : ((g.compile t registry).run d).1 =
      ((g.block? t registry).run d).1.map RolledBlock.text := by
    rw [g.compile_eq_block]
    rfl
  rw [hcompile, hblock, apply_ite (Option.map RolledBlock.text)]
  rfl

/-- The block of a group has the statements of all outputs that run before anything else, then the
first retrigger and then the other outputs in their order. It has every contribution once exactly if
the trigger has no repetition pass or at most one effect of the group is a retrigger. -/
theorem block_has_all_pieces_iff (g : RandomGroup) (t : Trigger) (registry : Registry) (d : Draft) :
    let compiled := (Bundle.compile g.effects t registry).run d
    let outputs := compiled.1.outputs
    let block := compiled.1.block (g.rollIn compiled.2)
    ((g.compile t registry).run d).1 = (if outputs.isEmpty then none else some block.text) ∧
    block.hoisted = Capture.statements g.effects ++ outputs.flatMap (·.hoisted) ∧
    block.pieces = ((outputs.filter (·.repeats)).take 1).flatMap (·.pieces) ++
      (outputs.filter (!·.repeats)).flatMap (·.pieces) ∧
    (block.pieces.Perm (outputs.flatMap (·.pieces)) ↔
      (t.hasRepetition = true → g.effects.countP (·.kind == .retrigger) ≤ 1)) := by
  intro compiled outputs block
  have hcount : outputs.countP (·.repeats) =
      if t.hasRepetition then g.effects.countP (·.kind == .retrigger) else 0 := by
    rw [← countP_kept]
    exact countP_repeats t registry _ g.effects d
  refine ⟨g.run_compile t registry d, rfl, compiled.1.pieces_block _, ?_⟩
  rw [compiled.1.perm_pieces_iff, hcount]
  cases t.hasRepetition <;> simp

/-- Of two retriggers the block returns the first one, and the second one stands nowhere in it,
though its slot is declared. -/
theorem second_retrigger_lost :
    let group : RandomGroup := ⟨"g", 1, 2, [{ id := "a", kind := .retrigger },
      { id := "b", kind := .retrigger, params := .ofList [("value", .int 3)] }]⟩
    let d : Draft := { owner := "j" }
    let compiled := (Bundle.compile group.effects .cardScored .builtin).run d
    let block := compiled.1.block (group.rollIn compiled.2)
    let lost := "repetitions = card.ability.extra.repetitions2"
    ((group.compile .cardScored .builtin).run d).1 = some block.text ∧
      (⟨"repetitions2", .int 3, none⟩ : Slot) ∈ compiled.2.derivedSlots ∧
      .entry lost ∈ compiled.1.outputs.flatMap (·.pieces) ∧ .entry lost ∉ block.pieces := by
  intro group d compiled block lost
  have hcompile : ((group.compile .cardScored .builtin).run d).1 =
      if compiled.1.isEmpty then none else some block.text :=
    group.run_compile .cardScored .builtin d
  rw [if_neg (by decide +kernel)] at hcompile
  exact ⟨hcompile, by decide +kernel, by decide +kernel, by decide +kernel⟩

end JokerRules
