import JokerRules.Proofs.LegalNames
import JokerRules.Proofs.Offsets

/-! The names of slots. Every slot name is a word of the generated language, but the identifier of
an authored variable may be a word that the language keeps for itself. -/

namespace JokerRules.SlotNames

open Definition Literals Step Storage Text

/-- The names that the author gives to variables: those declared and those that effects write. -/
def variableNames (item : Item) : List String :=
  item.userVariables.map (fun v => identifier v.name) ++
    (item.rules.filter (·.trigger != .passive)).flatMap fun r => r.everyEffect.filterMap (·.target?)

section Slots

variable {item : Item} {settings : ModSettings} {slot : Slot}

theorem mem_variableNames_of_fired {registry : Registry} {e : Effect} {t : Trigger}
    {captures : Captures} (h : fired e t captures ∈ ofTriggered registry item.rules) {name : String}
    (hname : e.target? = some name) : name ∈ variableNames item := by
  have hactive : ofTriggered registry item.rules =
      ofTriggered registry (item.rules.filter (·.trigger != .passive)) := by
    simp [ofTriggered, List.filter_filter]
  rw [hactive] at h
  obtain ⟨r, hr, he⟩ := exists_rule_of_fired h
  refine List.mem_append_right _ (List.mem_flatMap.mpr ⟨r, hr, ?_⟩)
  exact List.mem_filterMap.mpr ⟨e, he, hname⟩

theorem declared_cases (hregistry : settings.registry = .builtin)
    (h : slot ∈ declarations item settings) :
    Legal slot.name ∨ Spelled slot.name ∧ slot.name ∈ variableNames item := by
  obtain ⟨⟨d, s⟩, hpoint, hslot⟩ := List.mem_flatMap.mp h
  rcases mem_declares hslot with ⟨r, hr, hnew⟩ | hown
  · rw [hregistry] at hr
    exact .inl (legal_newSlots hr hnew)
  rcases mem_ownSlots hown with ⟨e, t, captures, rfl, htarget, -⟩ |
    ⟨numerator, denominator, rfl, rfl⟩
  · have hfired := mem_steps_of_mem_trace (mem_triggeredTrace hpoint (by simp))
    exact .inr ⟨spelled_target htarget, mem_variableNames_of_fired hfired htarget⟩
  · obtain ⟨n, hn⟩ := name_of_mem_itemOdds (mem_itemOdds_of_rolled hpoint)
    have hodds : Legal "odds" := legal_fixedStems "odds" (by decide)
    rw [show (slotOf (oddsOf d numerator denominator)).name = Names.nth "odds" n from hn]
    exact .inl (hodds.nth n)

theorem slot_cases (hregistry : settings.registry = .builtin)
    (h : slot ∈ itemSlots item settings) :
    Legal slot.name ∨ Spelled slot.name ∧ slot.name ∈ variableNames item := by
  rw [itemSlots_eq] at h
  rcases List.mem_append.mp (mem_of_mem_firsts Slot.name h) with h | h
  · rcases List.mem_append.mp h with h | h
    · refine declared_cases hregistry ?_
      rw [declarations_eq]
      exact List.mem_append_left _ (List.mem_filter.mp h).1
    · obtain ⟨hmem, hne⟩ := List.mem_filter.mp h
      obtain ⟨v, hv, rfl⟩ := List.mem_map.mp hmem
      have hnamed : identifier v.name ≠ "" := of_decide_eq_true hne
      refine .inr ⟨spelled_identifier hnamed, List.mem_append_left _ ?_⟩
      exact List.mem_map.mpr ⟨v, hv, rfl⟩
  · refine declared_cases hregistry ?_
    rw [declarations_eq]
    exact List.mem_append_right _ h

/-- Every variable with a name has a slot. -/
theorem mem_slotNames_of_variable {name : String} (h : name ∈ variableNames item) (hne : name ≠ "") :
    name ∈ (itemSlots item settings).map (·.name) := by
  rcases List.mem_append.mp h with h | h
  · obtain ⟨v, hv, rfl⟩ := List.mem_map.mp h
    have huser : Slot.ofVariable v ∈ userSlots item :=
      List.mem_filter.mpr ⟨List.mem_map_of_mem hv, decide_eq_true hne⟩
    refine mem_names_iff_find?.mpr ?_
    rw [find?_itemSlots, ← mem_names_iff_find?, List.append_assoc, List.map_append]
    exact List.mem_append_left _ (List.mem_map.mpr ⟨_, huser, rfl⟩)
  · obtain ⟨r, hr, h⟩ := List.mem_flatMap.mp h
    obtain ⟨e, he, htarget⟩ := List.mem_filterMap.mp h
    obtain ⟨hrule, htrigger⟩ := List.mem_filter.mp hr
    obtain ⟨t, captures, hfired⟩ := fired_mem_ofTriggered settings.registry hrule
      (by simpa using htrigger) he
    obtain ⟨d, hpoint⟩ := mem_trace_of_mem settings.registry (passiveDraft item settings) hfired
    have hdeclared := mem_declared (List.mem_append_right (passiveTrace item settings) hpoint)
      (target_mem_declares settings.registry d t captures htarget)
    exact Offsets.mem_names_of_declared hdeclared

end Slots

/-- Every slot name is well spelled, and the reserved words among them are those that the
author gives to variables. So all of them are legal exactly if no variable has a reserved word
for a name. -/
theorem slotNames_legal_iff {item : Item} {cell : AtlasCell} {settings : ModSettings}
    {definition : Definition} (hregistry : settings.registry = .builtin)
    (h : Definition.compile item cell settings = .ok definition) :
    (∀ slot ∈ definition.slots, Spelled slot.name) ∧
    (∀ word ∈ reservedWords,
      word ∈ definition.slots.map (·.name) ↔ word ∈ variableNames item) ∧
    ((∀ slot ∈ definition.slots, Legal slot.name) ↔
      ∀ name ∈ variableNames item, name ∉ reservedWords) := by
  obtain ⟨-, -, -, rfl⟩ := compile_eq_ok_iff.mp h
  have hspelled : ∀ slot ∈ itemSlots item settings, Spelled slot.name := by
    intro slot hslot
    exact (slot_cases hregistry hslot).elim Legal.toSpelled And.left
  have hreserved : ∀ word ∈ reservedWords,
      word ∈ (itemSlots item settings).map (·.name) ↔ word ∈ variableNames item := by
    intro word hword
    constructor
    · intro hmem
      obtain ⟨slot, hslot, rfl⟩ := List.mem_map.mp hmem
      exact (slot_cases hregistry hslot).elim (fun hlegal => absurd hword hlegal.unreserved) And.right
    · intro hmem
      have hne : ∀ word ∈ reservedWords, word ≠ "" := by decide
      exact mem_slotNames_of_variable hmem (hne word hword)
  refine ⟨hspelled, hreserved, fun hlegal name hname hword => ?_, fun hfree slot hslot => ?_⟩
  · obtain ⟨slot, hslot, rfl⟩ := List.mem_map.mp ((hreserved name hword).mpr hname)
    exact (hlegal slot hslot).unreserved hword
  · refine ⟨hspelled slot hslot, fun hword => ?_⟩
    exact hfree _ ((hreserved _ hword).mp (List.mem_map_of_mem hslot)) hword

/-- An item whose names come from everywhere: from variables, bonuses, bounds, offsets and odds. -/
def wordsmith : Item where
  id := "i"
  name := "Wordsmith"
  userVariables := [⟨"v", "9 Lives!", .int 9, none⟩, ⟨"w", "!?", .int 0, none⟩]
  rules := [
    { id := "p"
      trigger := .passive
      effects := [{ id := "a", kind := .discountItems }] },
    { id := "s"
      trigger := .cardScored
      effects := [
        { id := "b", kind := .addMult, params := .ofList [("value", .str "RANGE:1|4")] },
        { id := "c", kind := .addMult, params := .ofList [("value", .str "GAMEVAR:ante|1|5")] },
        { id := "d", kind := .permaBonus, params := .ofList [("bonus_type", .str "Perma X-Mult")] },
        { id := "e"
          kind := .modifyInternalVariable
          params := .ofList [("variable_name", .str "The End")] }]
      randomGroups := [⟨"g", 1, 4, [{ id := "f", kind := .retrigger }]⟩] }]

theorem wordsmith_legal :
    ∃ definition, Definition.compile wordsmith ⟨0, ⟨0, 0⟩, none⟩ {} = .ok definition ∧
      definition.slots.map (·.name) = ["discount", "_9_lives", "mult_min", "mult_max", "ante",
        "perma_x_mult", "the_end_change", "the_end", "repetitions", "odds"] ∧
      ∀ slot ∈ definition.slots, Legal slot.name := by
  have hitem : checkOffsets wordsmith (itemSlots wordsmith {}) (authoredSlots wordsmith)
        (ruleDraft wordsmith {}) = .ok () ∧
      (itemSlots wordsmith {}).map (·.name) = ["discount", "_9_lives", "mult_min", "mult_max", "ante",
        "perma_x_mult", "the_end_change", "the_end", "repetitions", "odds"] ∧
      ∀ name ∈ variableNames wordsmith, name ∉ reservedWords := by
    decide +kernel
  obtain ⟨hcheck, hnames, hfree⟩ := hitem
  obtain ⟨definition, hcompile, hslots⟩ := exists_compile wordsmith ⟨0, ⟨0, 0⟩, none⟩ {}
    (by decide) (by decide) hcheck
  exact ⟨definition, hcompile, hslots ▸ hnames, (slotNames_legal_iff rfl hcompile).2.2.mpr hfree⟩

/-- An item with a variable that is called like the word that closes a block. -/
def closer : Item where
  id := "i"
  name := "A"
  userVariables := [⟨"v", "End", .int 0, none⟩]

theorem variable_takes_reserved_word :
    ∃ definition, Definition.compile closer ⟨0, ⟨0, 0⟩, none⟩ {} = .ok definition ∧
      definition.slots.map (·.declaration) = ["end = 0"] ∧
      ¬∀ slot ∈ definition.slots, Legal slot.name := by
  obtain ⟨definition, hcompile, hslots⟩ := exists_compile closer ⟨0, ⟨0, 0⟩, none⟩ {}
    (by decide) (by decide) (by decide +kernel)
  refine ⟨definition, hcompile, hslots ▸ by decide +kernel, ?_⟩
  rw [hslots]
  decide +kernel

end JokerRules.SlotNames
