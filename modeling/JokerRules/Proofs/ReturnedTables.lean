import JokerRules.Proofs.Repeats

/-! Retriggers of random groups. A card is repeated only if the function for events returns a table
that says so. A group puts such a table into its own block, and the block stands either in that
function or, next to effects that return a table themselves, in the function inside their table. -/

namespace JokerRules

open Text Step Calculate

def RandomGroup.retriggers (g : RandomGroup) : Bool :=
  g.effects.any (·.kind == .retrigger)

open Code

theorem any_record {o : Output} (h : o.repeats = true) :
    o.record.texts.any (startsWith "repetitions = ") = true := by
  obtain ⟨entries, hbody, hany⟩ := Output.exists_fields_of_repeats h
  simp [Record.texts, Output.record, hbody, hany]

theorem repeatDepths_block (b : Bundle) (test : String) :
    (b.block test).code.repeatDepths = if b.outputs.any (·.repeats) then [0] else [] := by
  have hcalls : allRepeatDepths ((b.block test).calls.map fun call => plain call.text) = [] := by
    have hplain := allRepeatDepths_plain ((b.block test).calls.map Call.text)
    rwa [List.map_map] at hplain
  rw [RolledBlock.code, repeatDepths, allRepeatDepths_append, allRepeatDepths_plain, List.nil_append]
  cases hfind : b.outputs.find? (·.repeats) with
  | none =>
    have hnone : b.outputs.any (·.repeats) = false := by
      simpa using List.find?_eq_none.mp hfind
    rw [hnone]
    simpa [Bundle.block, hfind] using hcalls
  | some o =>
    have hrepeats : o.repeats = true := List.find?_some hfind
    have hany : b.outputs.any (·.repeats) = true :=
      List.any_eq_true.mpr ⟨o, List.mem_of_find?_eq_some hfind, hrepeats⟩
    have hreturned : (b.block test).returned = some o.record := by simp [Bundle.block, hfind]
    simp only [hreturned, hany, allRepeatDepths, repeatDepths, any_record hrepeats, hcalls, if_true,
      List.map_nil, List.append_nil]

/-- The blocks go one function deeper if the effects have a table of their own, which does not. -/
theorem repeatDepths_outline (b : Bundle) (blocks : List Code) :
    ∃ own, (∀ depth ∈ own, depth = 0) ∧ allRepeatDepths (b.outline blocks) =
      own ++ (allRepeatDepths blocks).map fun depth =>
        if (contentLevels b.outputs).isEmpty then depth else depth + 1 := by
  unfold Bundle.outline
  cases contentLevels b.outputs with
  | nil => exact ⟨[], by simp, by simp [allRepeatDepths_append, allRepeatDepths_plain]⟩
  | cons l ls =>
    refine ⟨if l.entries.any (startsWith "repetitions = ") then [0] else [], ?_, ?_⟩
    · intro depth hdepth
      split at hdepth
      · exact List.mem_singleton.mp hdepth
      · exact nomatch hdepth
    · simp [allRepeatDepths_append, allRepeatDepths_plain, allRepeatDepths, repeatDepths]

/-- Whatever the draft, the result is as said. -/
def Always {α : Type} (m : StateM Draft α) (P : α → Prop) : Prop :=
  ∀ d, P (m.run d).1

section Always

variable {α β : Type} {P : α → Prop} {Q : β → Prop}

theorem always_pure {a : α} (h : P a) : Always (pure a) P :=
  fun _ => h

theorem Always.bind {m : StateM Draft α} {next : α → StateM Draft β} (h : Always m P)
    (hnext : ∀ a, P a → Always (next a) Q) : Always (m >>= next) Q :=
  fun d => hnext _ (h d) _

theorem Always.map {m : StateM Draft α} {f : α → β} (h : Always m P) (hf : ∀ a, P a → Q (f a)) :
    Always (f <$> m) Q :=
  fun d => hf _ (h d)

end Always

section Firing

variable {t : Trigger} (registry : Registry)

theorem always_bundle (ht : t.hasRepetition) (effects : List Effect) :
    Always (Bundle.compile effects t registry) fun b =>
      b.outputs.any (·.repeats) = effects.any (·.kind == .retrigger) :=
  fun d => any_repeats ht registry _ effects d

theorem always_levels (t : Trigger) (effects : List Effect) :
    Always (Bundle.compile effects t registry) fun b =>
      (contentLevels b.outputs).isEmpty = !hasCode t effects := by
  intro d
  have hempty : ((Bundle.compile effects t registry).run d).1.outputs.isEmpty = !hasCode t effects :=
    (performs_outputs t registry (Capture.captures effects) effects d).1
  have hshows : ∀ o ∈ ((Bundle.compile effects t registry).run d).1.outputs, o.Shows :=
    shows_outputs registry _ d
  rw [contentLevels_eq hshows, List.isEmpty_map, hempty]

theorem always_group (ht : t.hasRepetition) (g : RandomGroup) :
    Always (g.outline t registry) fun block =>
      allRepeatDepths block.toList = if g.retriggers then [0] else [] := by
  refine Always.map (P := fun block : Option RolledBlock => allRepeatDepths
    (block.map (·.code)).toList = if g.retriggers then [0] else []) ?_ fun _ h => h
  refine (always_bundle registry ht g.effects).bind fun b hb => ?_
  rw [RandomGroup.retriggers, ← hb]
  cases hempty : b.isEmpty with
  | true =>
    have houtputs : b.outputs = [] := List.isEmpty_iff.mp hempty
    exact always_pure (by simp [houtputs, allRepeatDepths])
  | false =>
    have hblock : ∀ test, allRepeatDepths [(b.block test).code] =
        if b.outputs.any (·.repeats) then [0] else [] := fun test => by
      rw [allRepeatDepths, allRepeatDepths, List.append_nil, repeatDepths_block]
    exact fun d => hblock _

theorem always_blocks (ht : t.hasRepetition) (groups : List RandomGroup) :
    Always (blockOutlines t registry groups) fun blocks =>
      allRepeatDepths blocks = (groups.filter (·.retriggers)).map fun _ => 0 := by
  induction groups with
  | nil => exact always_pure rfl
  | cons g groups ih =>
    refine (always_group registry ht g).bind fun block hblock => ?_
    refine ih.bind fun blocks hblocks => always_pure ?_
    rw [allRepeatDepths_append, hblock, hblocks, List.filter_cons]
    split <;> rfl

/-- Each group with a retrigger has one table that repeats a card. It stands in the function for
events itself if no effect beside the groups has code, and in the function inside the table of these
effects otherwise. -/
theorem always_outline (ht : t.hasRepetition) (effects : List Effect) (groups : List RandomGroup) :
    Always (outline effects groups t registry) fun code =>
      ∃ own, (∀ depth ∈ own, depth = 0) ∧ allRepeatDepths code =
        own ++ (groups.filter (·.retriggers)).map fun _ => if hasCode t effects then 1 else 0 := by
  refine (always_levels registry t effects).bind fun b hb => ?_
  refine (always_blocks registry ht groups).bind fun blocks hblocks => always_pure ?_
  obtain ⟨own, hown, hdepths⟩ := repeatDepths_outline b blocks
  refine ⟨own, hown, hdepths.trans ?_⟩
  rw [hblocks, hb, List.map_map]
  congr 1
  cases hasCode t effects <;> rfl

end Firing

/-- The retriggers of random groups are returned by the function for events exactly if there are
none or no effect beside the groups has code. -/
theorem group_retriggers_returned_iff (effects : List Effect) (groups : List RandomGroup)
    {t : Trigger} (ht : t.hasRepetition) (registry : Registry) (d : Draft) :
    let code := ((outline effects groups t registry).run d).1
    ((firing? effects groups t registry).run d).1 = whole? code ∧
    (∃ own, (∀ depth ∈ own, depth = 0) ∧ allRepeatDepths code =
      own ++ (groups.filter (·.retriggers)).map fun _ => if hasCode t effects then 1 else 0) ∧
    ((∀ depth ∈ allRepeatDepths code, depth = 0) ↔
      (∀ e ∈ effects, e.plan? t = none) ∨ ∀ g ∈ groups, ∀ e ∈ g.effects, e.kind ≠ .retrigger) := by
  intro code
  have hdepths := always_outline registry ht effects groups d
  refine ⟨firing?_eq_outline effects groups t registry d, hdepths, ?_⟩
  have hcode : hasCode t effects = false ↔ ∀ e ∈ effects, e.plan? t = none := by
    simp [hasCode]
  have hgroups : groups.filter (·.retriggers) = [] ↔
      ∀ g ∈ groups, ∀ e ∈ g.effects, e.kind ≠ .retrigger := by
    simp [RandomGroup.retriggers, List.filter_eq_nil_iff]
  obtain ⟨own, hown, hall⟩ := hdepths
  rw [← hcode, ← hgroups, hall, List.forall_mem_append, and_iff_right hown]
  cases hasCode t effects with
  | false => simp
  | true => cases groups.filter (·.retriggers) <;> simp

/-- A retrigger, and another one next to a gift. -/
def luckyGroups : List RandomGroup :=
  [⟨"g", 1, 2, [{ id := "a", kind := .retrigger }]⟩,
    ⟨"h", 1, 3, [{ id := "b", kind := .addDollars }, { id := "c", kind := .retrigger }]⟩]

/-- A scored card cannot save a lost round, so the groups have the function to themselves. -/
theorem luckyGroups_returned :
    Trigger.cardScored.hasRepetition ∧
      ∀ depth ∈ allRepeatDepths
        ((outline [{ id := "s", kind := .savedFromDeath }] luckyGroups .cardScored .builtin).run
          { owner := "j" }).1, depth = 0 := by
  refine ⟨rfl, ?_⟩
  obtain ⟨-, -, hiff⟩ := group_retriggers_returned_iff [{ id := "s", kind := .savedFromDeath }]
    luckyGroups (t := .cardScored) rfl .builtin { owner := "j" }
  exact hiff.mpr (.inl (by decide))

/-- Next to chips the retrigger is returned by the function in the table of the chips, which keeps
it from the game. -/
theorem retrigger_lost_beside_chips :
    let effects : List Effect := [{ id := "c", kind := .addChips }]
    let groups : List RandomGroup := [⟨"g", 1, 2, [{ id := "r", kind := .retrigger }]⟩]
    let code := ((outline effects groups .cardScored .builtin).run { owner := "j" }).1
    ((firing? effects groups .cardScored .builtin).run { owner := "j" }).1 = whole? code ∧
      allRepeatDepths code = [1] := by
  intro effects groups code
  exact ⟨firing?_eq_outline effects groups _ _ _, by decide +kernel⟩

end JokerRules
