import JokerRules.Proofs.PrunedBlocks

/-! Items without the effects that mean nothing. Such an item has the same key, slots, requests and
faults. Its code differs exactly where a dropped effect still names a captured variable, or alone
keeps copies of the item out of a block. -/

namespace JokerRules

open Text Step

/-- The tests under which rules of a trigger fire. -/
def Trigger.tests (t : Trigger) : List String :=
  (t.eventTest? true).toList ++ (t.eventTest? false).toList ++
    if t = .roundEnd then ["context.end_of_round and context.game_over and context.main_eval"] else []

def Trigger.ofTest? (test : String) : Option Trigger :=
  Trigger.all.find? fun t => t.tests.contains test

/-- A test tells the trigger that it belongs to. -/
theorem Trigger.ofTest?_of_mem {t : Trigger} {test : String} (h : test ∈ t.tests) :
    Trigger.ofTest? test = some t := by
  have hall : ∀ t ∈ Trigger.all, ∀ test ∈ t.tests, Trigger.ofTest? test = some t := by
    decide +kernel
  have hmem : t ∈ Trigger.all := by cases t <;> decide
  exact hall t hmem test h

theorem firingTest?_mem {r : Rule} {test : String} (h : r.firingTest? = some test) :
    test ∈ r.trigger.tests := by
  unfold Rule.firingTest? at h
  split at h
  · next hsaved =>
    rw [Bool.and_eq_true, decide_eq_true_eq] at hsaved
    obtain rfl := Option.some.inj h
    simp [Trigger.tests, hsaved.1]
  · cases hrepeats : r.repeatsCards && r.trigger.hasRepetition <;> rw [hrepeats] at h <;>
      simp [Trigger.tests, h]

theorem byGuard_pruned (owner : String) (rules : List Rule) :
    Calculate.byGuard (rules.map (·.pruned owner)) =
      (Calculate.byGuard rules).map fun block => (block.1, block.2.map (·.pruned owner)) := by
  have htest : ∀ r : Rule, (r.pruned owner).firingTest? = r.firingTest? := firingTest?_pruned owner
  simp only [Calculate.byGuard, List.filterMap_map, List.map_map, List.filter_map,
    Function.comp_def, htest]

/-- The rules of a block, which has some, fire under its test. -/
theorem mem_byGuard {rules : List Rule} {block : String × List Rule}
    (h : block ∈ Calculate.byGuard rules) :
    (∃ r, r ∈ block.2) ∧ ∀ r ∈ block.2, r ∈ rules ∧ r.firingTest? = some block.1 := by
  obtain ⟨test, htest, rfl⟩ := List.mem_map.mp h
  obtain ⟨r, hr, hfires⟩ := List.mem_filterMap.mp (List.mem_eraseDups.mp htest)
  refine ⟨⟨r, List.mem_filter.mpr ⟨hr, by simp [hfires]⟩⟩, fun r hr => ?_⟩
  simpa using List.mem_filter.mp hr

/-- No dropped effect leaves anything in the code of the rules. -/
def TracelessRules (registry : Registry) (rules : List Rule) : Prop :=
  ∀ block ∈ Calculate.byGuard (rules.filter (·.trigger != .passive)),
    ∀ r ∈ block.2, Traceless registry r.trigger block.2

instance (registry : Registry) (rules : List Rule) : Decidable (TracelessRules registry rules) :=
  inferInstanceAs (Decidable (∀ block ∈ Calculate.byGuard _, ∀ r ∈ block.2, _))

theorem tracks_guardBlocks (registry : Registry) (owner : String)
    {blocks : List (String × List Rule)}
    (h : ∀ block ∈ blocks, ∃ t, t ≠ Trigger.passive ∧ (∃ r, r ∈ block.2) ∧
      ∀ r ∈ block.2, r.trigger = t) :
    ∃ present, Tracks (Matches
        (∀ block ∈ blocks, ∀ r ∈ block.2, Traceless registry r.trigger block.2) present)
      (Calculate.guardBlocks registry blocks)
      (Calculate.guardBlocks registry
        (blocks.map fun block => (block.1, block.2.map (·.pruned owner)))) := by
  induction blocks with
  | nil => exact ⟨false, tracks_pure (Matches.nil.congr (by simp))⟩
  | cons block blocks ih =>
    obtain ⟨hblock, hrest⟩ := List.forall_mem_cons.mp h
    obtain ⟨present, hrest⟩ := ih hrest
    obtain ⟨t, ht, ⟨r, hr⟩, htrigger⟩ := hblock
    have htraceless : (∀ r ∈ block.2, Traceless registry r.trigger block.2) ↔
        Traceless registry t block.2 := by
      constructor
      · intro hall
        exact htrigger r hr ▸ hall r hr
      · intro hone r hr
        exact (htrigger r hr).symm ▸ hone
    have hfirst := tracks_block registry owner htrigger ht block.1
    refine ⟨(block.2.any fun r => hasCode t r.everyEffect) || present,
      hfirst.bind fun code code' hcode => ?_⟩
    refine hrest.map fun codes codes' hcodes => ?_
    exact (hcode.append hcodes).congr (by simp [htraceless])

theorem tracks_calculate (registry : Registry) (owner : String) (rules : List Rule) :
    ∃ present, Tracks (fun code code' => Matches (TracelessRules registry rules) present
        code.toList code'.toList)
      (Calculate.compile rules registry)
      (Calculate.compile (rules.map (·.pruned owner)) registry) := by
  have hrules : (rules.map (·.pruned owner)).filter (·.trigger != .passive) =
      (rules.filter (·.trigger != .passive)).map (·.pruned owner) :=
    List.filter_map
  have hblocks : ∀ block ∈ Calculate.byGuard (rules.filter (·.trigger != .passive)),
      ∃ t, t ≠ Trigger.passive ∧ (∃ r, r ∈ block.2) ∧ ∀ r ∈ block.2, r.trigger = t := by
    intro block hblock
    obtain ⟨⟨r, hr⟩, hall⟩ := mem_byGuard hblock
    have hpassive : r.trigger ≠ .passive := by
      simpa using (List.mem_filter.mp (hall r hr).1).2
    refine ⟨r.trigger, hpassive, ⟨r, hr⟩, fun r' hr' => ?_⟩
    have htest := Trigger.ofTest?_of_mem (firingTest?_mem (hall r hr).2)
    have htest' := Trigger.ofTest?_of_mem (firingTest?_mem (hall r' hr').2)
    exact Option.some.inj (htest'.symm.trans htest)
  obtain ⟨present, htracks⟩ := tracks_guardBlocks registry owner hblocks
  rw [← byGuard_pruned, ← hrules] at htracks
  refine ⟨present, htracks.bind fun codes codes' hcodes => ?_⟩
  have hwhole := hcodes.whole
    (f := fun codes => unlines ["function(self, card, context)", indent 1 (unlines codes), "end"])
    (hcodes.outgrows.unlines.block _ _)
  rw [hcodes.isEmpty, hcodes.isEmpty_right] at hwhole ⊢
  cases present <;> exact tracks_pure hwhole

theorem compileEffects_held (registry : Registry) (owner : String) (effects : List Effect) :
    DeckCode.compileEffects registry (effects.filter fun e => (e.heldPlan? owner).isSome) =
      DeckCode.compileEffects registry effects := by
  induction effects with
  | nil => rfl
  | cons e effects ih =>
    cases hheld : (e.heldPlan? owner).isSome with
    | false =>
      have hnone : e.compileHeld registry = pure none := funext (compileHeld_dropped hheld registry)
      rw [List.filter_cons_of_neg (by simp [hheld]), ih, DeckCode.compileEffects, hnone]
      rfl
    | true =>
      rw [List.filter_cons_of_pos (by simp [hheld]), DeckCode.compileEffects, ih,
        DeckCode.compileEffects]

theorem compile_passive_pruned (registry : Registry) (owner : String) (rules : List Rule) :
    DeckCode.compile (rules.map (·.pruned owner)) registry = DeckCode.compile rules registry := by
  have hpassive : (rules.map (·.pruned owner)).filter (·.trigger == .passive) =
      (rules.filter (·.trigger == .passive)).map (·.pruned owner) :=
    List.filter_map
  have heffects : ((rules.filter (·.trigger == .passive)).map (·.pruned owner)).flatMap (·.effects) =
      ((rules.filter (·.trigger == .passive)).flatMap (·.effects)).filter
        fun e => (e.heldPlan? owner).isSome := by
    rw [List.flatMap_map, List.filter_flatMap]
    refine List.flatMap_congr fun r hr => ?_
    have htrigger : r.trigger = .passive := by simpa using (List.mem_filter.mp hr).2
    exact if_pos htrigger
  simp only [DeckCode.compile, hpassive, heffects, compileEffects_held]

namespace Definition

/-- The code for events is one of the last entries. -/
theorem entries_eq (item : Item) (cell : AtlasCell) (settings : ModSettings) (slots : List Slot)
    (d : Draft) (calculate : Option String) (passive : DeckCode) :
    entries item cell settings slots d calculate passive =
      entries item cell settings slots d none {} ++ calculate.toList.map ("calculate = " ++ ·) ++
        (deckEntry "add_to_deck" passive.addToDeck ++
          deckEntry "remove_from_deck" passive.removeFromDeck) := by
  simp only [entries, deckEntry, Option.toList_none, List.map_nil, List.append_nil,
    List.append_assoc, List.isEmpty_nil, if_true]

theorem outgrows_entries {P : Prop} {present : Bool} {calculate calculate' : Option String}
    (h : Matches P present calculate.toList calculate'.toList) (item : Item) (cell : AtlasCell)
    (settings : ModSettings) (slots : List Slot) (d : Draft) (passive : DeckCode) :
    Outgrows P [table (entries item cell settings slots d calculate passive)]
      [table (entries item cell settings slots d calculate' passive)] := by
  have hall := ((Matches.refl (entries item cell settings slots d none {})).append
    (h.starts "calculate = ")).append (.refl (deckEntry "add_to_deck" passive.addToDeck ++
      deckEntry "remove_from_deck" passive.removeFromDeck))
  rw [← entries_eq, ← entries_eq] at hall
  exact Matches.table ⟨rfl, hall.length, hall.outgrows.congr (by simp)⟩

theorem ruleResult_pruned (item : Item) (settings : ModSettings) (owner : String) :
    (ruleResult (item.pruned owner) settings).2 = (ruleResult item settings).2 ∧
      (ruleResult (item.pruned owner) settings).1.1 = (ruleResult item settings).1.1 ∧
      ∃ present, Matches (TracelessRules settings.registry item.rules) present
        (ruleResult item settings).1.2.toList
        (ruleResult (item.pruned owner) settings).1.2.toList := by
  obtain ⟨present, hcalculate⟩ := tracks_calculate settings.registry owner item.rules
  have hpassive := compile_passive_pruned settings.registry owner item.rules
  have hrules : Tracks (fun result result' => result'.1 = result.1 ∧
        Matches (TracelessRules settings.registry item.rules) present result.2.toList
          result'.2.toList)
      (compileRules item settings.registry) (compileRules (item.pruned owner) settings.registry) := by
    unfold compileRules
    rw [show (item.pruned owner).rules = item.rules.map (·.pruned owner) from rfl, hpassive]
    refine (tracks_same _).bind fun passive passive' h => ?_
    exact hcalculate.map fun code code' hcode => ⟨h.symm, hcode⟩
  obtain ⟨hdraft, hfirst, hmatches⟩ := hrules { owner := settings.itemKey item.slug }
  exact ⟨hdraft.symm, hfirst, present, hmatches⟩

theorem slots_pruned (item : Item) (settings : ModSettings) (owner : String) :
    itemSlots (item.pruned owner) settings = itemSlots item settings :=
  congrArg (Storage.slots (Storage.authoredSlots item)) (ruleResult_pruned item settings owner).1

/-- More ink in the code for events is more ink in the source. -/
theorem source_pruned_eq_iff (item : Item) (cell : AtlasCell) (settings : ModSettings)
    (owner : String) :
    "SMODS.Joker " ++ table (itemEntries (item.pruned owner) cell settings) =
        "SMODS.Joker " ++ table (itemEntries item cell settings) ↔
      TracelessRules settings.registry item.rules := by
  obtain ⟨hdraft, hpassive, present, hcalculate⟩ := ruleResult_pruned item settings owner
  have hentries : itemEntries (item.pruned owner) cell settings =
      entries item cell settings (itemSlots item settings) (ruleDraft item settings)
        (ruleResult (item.pruned owner) settings).1.2 (ruleResult item settings).1.1 := by
    rw [itemEntries, slots_pruned, ruleDraft, hdraft, hpassive]
    rfl
  rw [hentries, eq_comm]
  have hout := (outgrows_entries hcalculate item cell settings (itemSlots item settings)
    (ruleDraft item settings) (ruleResult item settings).1.1).after "SMODS.Joker "
  exact List.singleton_inj.symm.trans hout.eq_iff

/-- The item without its dropped effects gives the same fault, or the same key, slots and requests.
It gives the same definition exactly if no dropped effect leaves a trace in the code. -/
theorem compile_pruned_eq_iff_traceless (item : Item) (cell : AtlasCell) (settings : ModSettings) :
    let pruned := item.pruned (settings.itemKey item.slug)
    (compile pruned cell settings).map (fun d => (d.key, d.slots, d.requests)) =
        (compile item cell settings).map (fun d => (d.key, d.slots, d.requests)) ∧
      (compile pruned cell settings = compile item cell settings ↔
        ((∃ definition, compile item cell settings = .ok definition) →
          TracelessRules settings.registry item.rules)) := by
  intro pruned
  obtain ⟨hdraft, hpassive, -⟩ := ruleResult_pruned item settings (settings.itemKey item.slug)
  have hdraft : ruleDraft pruned settings = ruleDraft item settings := hdraft
  have hpassive : (ruleResult pruned settings).1.1 = (ruleResult item settings).1.1 := hpassive
  have hslots := slots_pruned item settings (settings.itemKey item.slug)
  have hsource := source_pruned_eq_iff item cell settings (settings.itemKey item.slug)
  have hcheck : Storage.checkOffsets pruned (itemSlots pruned settings)
        (Storage.authoredSlots pruned) (ruleDraft pruned settings) =
      Storage.checkOffsets item (itemSlots item settings) (Storage.authoredSlots item)
        (ruleDraft item settings) := by
    rw [hslots, hdraft]
    rfl
  have hid : pruned.id = item.id := rfl
  have hname : pruned.name = item.name := rfl
  have hslug : pruned.slug = item.slug := rfl
  rw [compile_eq pruned, compile_eq item, hcheck, hslots, hpassive, hid, hname, hslug]
  by_cases hblank : trim item.name = ""
  · simp [hblank, Except.map]
  by_cases hkey : item.slug = ""
  · simp [hblank, hkey, Except.map]
  cases Storage.checkOffsets item (itemSlots item settings) (Storage.authoredSlots item)
      (ruleDraft item settings) with
  | error e => simp [hblank, hkey, Except.map]
  | ok u => simpa [hblank, hkey, Except.map] using hsource

/-- Chips, and a change of a variable that has no name. -/
def chipGiver : Item where
  id := "i"
  name := "A"
  rules := [
    { id := "r"
      trigger := .handPlayed
      effects := [
        { id := "e1", kind := .addChips },
        { id := "e2", kind := .modifyInternalVariable }] }]

/-- A change of a variable, and a retrigger where no card is scored, which names the variable. -/
def stackKeeper : Item where
  id := "i"
  name := "A"
  rules := [
    { id := "r"
      trigger := .handPlayed
      effects := [
        { id := "e1"
          kind := .modifyInternalVariable
          params := .ofList [("variable_name", .str "stacks")] },
        { id := "e2", kind := .retrigger, params := .ofList [("value", .str "stacks")] }] }]

/-- The dropped change keeps copies out of the block, and the dropped retrigger leaves a capture. -/
theorem dropped_effects_leave_traces :
    (compile chipGiver ⟨0, ⟨0, 0⟩, none⟩ {} ≠
        compile (chipGiver.pruned "j_custom_a") ⟨0, ⟨0, 0⟩, none⟩ {} ∧
      (chipGiver.pruned "j_custom_a").rules.map (·.effects.map (·.id)) = [["e1"]]) ∧
    (compile stackKeeper ⟨0, ⟨0, 0⟩, none⟩ {} ≠
        compile (stackKeeper.pruned "j_custom_a") ⟨0, ⟨0, 0⟩, none⟩ {} ∧
      (stackKeeper.pruned "j_custom_a").rules.map (·.effects.map (·.id)) = [["e1"]]) := by
  have hne : ∀ item : Item, trim item.name ≠ "" → item.slug ≠ "" →
      Storage.checkOffsets item (itemSlots item {}) (Storage.authoredSlots item)
        (ruleDraft item {}) = .ok () →
      ¬TracelessRules ({} : ModSettings).registry item.rules →
      compile item ⟨0, ⟨0, 0⟩, none⟩ {} ≠ compile (item.pruned "j_custom_a") ⟨0, ⟨0, 0⟩, none⟩ {} := by
    intro item hname hslug hcheck htraces heq
    obtain ⟨definition, hok, -⟩ := exists_compile item ⟨0, ⟨0, 0⟩, none⟩ {} hname hslug hcheck
    have hpruned := (compile_eq_ok_iff.mp (heq ▸ hok)).2.2.2
    have hfull := (compile_eq_ok_iff.mp hok).2.2.2
    refine htraces ((source_pruned_eq_iff item ⟨0, ⟨0, 0⟩, none⟩ {} "j_custom_a").mp ?_)
    exact congrArg Definition.source (hpruned.symm.trans hfull)
  refine ⟨⟨hne _ ?_ ?_ ?_ ?_, ?_⟩, hne _ ?_ ?_ ?_ ?_, ?_⟩ <;> decide +kernel

end Definition

end JokerRules
