import JokerRules.Proofs.LiteralSlots

/-! Offsets of readings. What an item notes as required is the offset of one of its readings, and
every reading declares its offset, so that no offset is ever left without a slot. If the item
compiles, the slot holds the offset, and neither the author nor an effect has a hold on it. -/

namespace JokerRules

namespace Resolved

variable {v : Value} {id hint : String} {registry : Registry} {captures : Captures} {slot : Slot}

theorem mem_newSlots_of_offsetSlot
    (h : (ofValue v id hint registry captures).offsetSlot = some slot) :
    slot ∈ (ofValue v id hint registry captures).newSlots := by
  obtain ⟨_, _, _, _, -, heq, -⟩ := exists_of_offsetSlot h
  rw [heq] at h ⊢
  rw [newSlots_ofGameState]
  exact Option.mem_toList.mpr h

/-- A reading of registered state with an offset goes through the slot that its label names. -/
theorem ofGameState_of_offset {key : String} {var : GameVariable} {multiplier offset : Binary64}
    (hvar : registry.get? key = some var) (hoffset : offset.equals (.zero false) = false) :
    ofGameState key multiplier offset registry = {
      amount := .state var.template multiplier offset (Slot.read (offsetName var.label))
      newSlots := [{ name := offsetName var.label, initial := .ofNumber offset }]
      offsetSlot := some { name := offsetName var.label, initial := .ofNumber offset } } := by
  simp only [ofGameState, hvar, hoffset, Bool.false_eq_true, if_false]

end Resolved

theorem mem_required_recordAmount {d : Draft} {r : Resolved} {slot : Slot}
    (h : slot ∈ (d.recordAmount r).requiredSlots) :
    slot ∈ d.requiredSlots ∨ r.offsetSlot = some slot := by
  have hadd : ∀ (d : Draft) (noted : Slot), slot ∈ (d.addRequired noted).requiredSlots →
      slot ∈ d.requiredSlots ∨ some noted = some slot := by
    intro d noted hmem
    unfold Draft.addRequired at hmem
    split at hmem
    · exact .inl hmem
    · simpa [eq_comm] using hmem
  unfold Draft.recordAmount at h
  cases hnoted : r.offsetSlot <;> cases hreference : r.reference <;>
    simp only [hnoted, hreference] at h
  · exact .inl h
  · exact .inl h
  · exact hadd d _ h
  · exact hadd (d.addReference _) _ h

theorem mem_required_carryOut {α : Type} {d : Draft} {e : Effect} {plan : Plan α}
    {registry : Registry} {captures : Captures} {slot : Slot}
    (h : slot ∈ (d.carryOut e plan registry captures).2.requiredSlots) :
    slot ∈ d.requiredSlots ∨
      ∃ r, d.reading? e plan registry captures = some r ∧ r.resolved.offsetSlot = some slot := by
  cases plan with
  | plain make => exact .inl h
  | measured stem fallback make =>
    exact (mem_required_recordAmount h).imp_right fun hslot => ⟨_, rfl, hslot⟩

namespace Step

variable {registry : Registry} {d start : Draft} {s : Step} {steps : List Step} {slot : Slot}

theorem mem_required_run (h : slot ∈ (run registry d s).requiredSlots) :
    slot ∈ d.requiredSlots ∨
      ∃ r, s.reading? registry d = some r ∧ r.resolved.offsetSlot = some slot := by
  cases s with
  | held e =>
    cases hplan : e.heldPlan? d.owner with
    | none =>
      simp only [run, Effect.compileHeld_run, hplan] at h
      exact .inl h
    | some plan =>
      rw [run_held registry hplan] at h
      rw [reading?_held hplan]
      exact mem_required_carryOut h
  | fired e t captures =>
    cases hplan : e.plan? t with
    | none =>
      simp only [run, Effect.compile_run, hplan] at h
      exact .inl h
    | some plan =>
      rw [run_fired registry d captures hplan] at h
      rw [reading?_fired hplan]
      refine mem_required_carryOut ?_
      simp only [Draft.store, Draft.recordSlots, Effect.noteTarget] at h
      split at h <;> exact h
  | rolled numerator denominator =>
    simp only [run, Draft.shareOdds] at h
    split at h <;> exact .inl h

theorem mem_required_runAll (h : slot ∈ (runAll registry start steps).requiredSlots) :
    slot ∈ start.requiredSlots ∨
      ∃ r ∈ readings registry (trace registry start steps), r.resolved.offsetSlot = some slot := by
  induction steps generalizing start with
  | nil => exact .inl h
  | cons s steps ih =>
    rw [trace, readings_cons]
    rcases ih h with h | ⟨r, hr, hslot⟩
    · rcases mem_required_run h with h | ⟨r, hr, hslot⟩
      · exact .inl h
      · exact .inr ⟨r, List.mem_append_left _ (Option.mem_toList.mpr hr), hslot⟩
    · exact .inr ⟨r, List.mem_append_right _ hr, hslot⟩

theorem mem_trace_of_mem (registry : Registry) (start : Draft) (h : s ∈ steps) :
    ∃ d, (d, s) ∈ trace registry start steps := by
  induction steps generalizing start with
  | nil => exact nomatch h
  | cons s' steps ih =>
    rcases List.mem_cons.mp h with rfl | h
    · exact ⟨start, List.mem_cons_self⟩
    · obtain ⟨d, hd⟩ := ih (s'.run registry start) h
      exact ⟨d, List.mem_cons_of_mem _ hd⟩

end Step

theorem Rule.exists_firingTest {r : Rule} (h : r.trigger ≠ .passive) :
    ∃ guard, r.firingTest? = some guard := by
  unfold Rule.firingTest?
  split
  · exact ⟨_, rfl⟩
  · cases ht : r.trigger with
    | passive => exact absurd ht h
    | _ => exact ⟨_, rfl⟩

namespace Step

theorem fired_mem_ofFiring {effects : List Effect} {groups : List RandomGroup} {e : Effect}
    (h : e ∈ effects ++ groups.flatMap (·.effects)) (t : Trigger) :
    ∃ captures, fired e t captures ∈ ofFiring effects groups t := by
  rcases List.mem_append.mp h with h | h
  · exact ⟨Capture.captures effects, List.mem_append_left _ (List.mem_map_of_mem h)⟩
  · obtain ⟨g, hg, he⟩ := List.mem_flatMap.mp h
    refine ⟨Capture.captures g.effects, List.mem_append_right _ ?_⟩
    refine List.mem_flatMap.mpr ⟨g, hg, List.mem_append_left _ (List.mem_map_of_mem he)⟩

theorem fired_mem_ofTriggered (registry : Registry) {rules : List Rule} {r : Rule} {e : Effect}
    (hr : r ∈ rules) (htrigger : r.trigger ≠ .passive) (he : e ∈ r.everyEffect) :
    ∃ t captures, fired e t captures ∈ ofTriggered registry rules := by
  obtain ⟨guard, hguard⟩ := Rule.exists_firingTest htrigger
  have hactive : r ∈ rules.filter (·.trigger != .passive) :=
    List.mem_filter.mpr ⟨hr, by simpa using htrigger⟩
  let block := (rules.filter (·.trigger != .passive)).filter (·.firingTest? == some guard)
  have hblock : r ∈ block := List.mem_filter.mpr ⟨hactive, by simpa using hguard⟩
  have hmem : (guard, block) ∈ Calculate.byGuard (rules.filter (·.trigger != .passive)) := by
    refine List.mem_map.mpr ⟨guard, ?_, rfl⟩
    exact List.mem_eraseDups.mpr (List.mem_filterMap.mpr ⟨r, hactive, hguard⟩)
  suffices h : ∃ t captures, fired e t captures ∈
      block.flatMap (ofBranch registry) ++ ofFallback registry block by
    obtain ⟨t, captures, h⟩ := h
    exact ⟨t, captures, List.mem_flatMap.mpr ⟨_, hmem, h⟩⟩
  by_cases hcondition : (r.guard? registry).isSome = true
  · obtain ⟨captures, hfired⟩ := fired_mem_ofFiring he r.trigger
    refine ⟨r.trigger, captures, List.mem_append_left _ (List.mem_flatMap.mpr ⟨r, hblock, ?_⟩)⟩
    rwa [ofBranch, if_pos hcondition]
  · obtain ⟨last, hlast⟩ : ∃ last, block.getLast? = some last :=
      ⟨_, List.getLast?_eq_some_getLast (List.ne_nil_of_mem hblock)⟩
    have hfree : r ∈ block.filter fun r => (r.guard? registry).isNone :=
      List.mem_filter.mpr ⟨hblock, by simpa using hcondition⟩
    have hmerged : e ∈ (block.filter fun r => (r.guard? registry).isNone).flatMap (·.effects) ++
        ((block.filter fun r => (r.guard? registry).isNone).flatMap (·.randomGroups)).flatMap
          (·.effects) := by
      rcases List.mem_append.mp he with he | he
      · exact List.mem_append_left _ (List.mem_flatMap.mpr ⟨r, hfree, he⟩)
      · obtain ⟨g, hg, he⟩ := List.mem_flatMap.mp he
        refine List.mem_append_right _ (List.mem_flatMap.mpr ⟨g, ?_, he⟩)
        exact List.mem_flatMap.mpr ⟨r, hfree, hg⟩
    obtain ⟨captures, hfired⟩ := fired_mem_ofFiring hmerged last.trigger
    refine ⟨last.trigger, captures, List.mem_append_right _ ?_⟩
    rw [ofFallback, hlast]
    exact hfired

end Step

namespace Offsets

open Definition Literals Step Storage

variable {item : Item} {settings : ModSettings} {slot : Slot}

theorem exists_reading_of_required (h : slot ∈ (ruleDraft item settings).requiredSlots) :
    ∃ r ∈ itemReadings item settings, r.resolved.offsetSlot = some slot := by
  rw [ruleDraft_eq] at h
  rw [itemReadings, itemTrace_eq]
  exact (mem_required_runAll h).resolve_left List.not_mem_nil

theorem offset_declared {r : Reading} (hr : r ∈ itemReadings item settings)
    (hslot : r.resolved.offsetSlot = some slot) : slot ∈ declarations item settings := by
  obtain ⟨d, s, hpoint, hreading⟩ := exists_point_of_mem_readings hr
  obtain ⟨captures, hresolved⟩ := resolved_of_reading hreading
  refine mem_declared hpoint ?_
  rw [declares_eq, hreading, Option.elim_some, hresolved]
  exact List.mem_append_left _ (Resolved.mem_newSlots_of_offsetSlot (hresolved ▸ hslot))

theorem mem_names_of_declared (h : slot ∈ declarations item settings) :
    slot.name ∈ (itemSlots item settings).map (·.name) := by
  refine mem_names_iff_find?.mpr ?_
  rw [find?_itemSlots, ← mem_names_iff_find?, List.append_assoc, ← declarations_eq]
  exact List.mem_map_of_mem (List.mem_append_right _ h)

theorem forM_eq_error {α ε : Type} {f : α → Except ε Unit} {l : List α} {e : ε}
    (h : l.forM f = .error e) : ∃ a ∈ l, f a = .error e := by
  induction l with
  | nil => exact nomatch h
  | cons a l ih =>
    have h : (f a >>= fun _ => l.forM f) = .error e := h
    cases ha : f a with
    | error e' =>
      rw [ha] at h
      exact ⟨a, List.mem_cons_self, ha.trans h⟩
    | ok u =>
      rw [ha] at h
      obtain ⟨b, hb, hf⟩ := ih h
      exact ⟨b, List.mem_cons_of_mem _ hb, hf⟩

theorem checkOffset_ne_undeclared {slots user : List Slot} {d : Draft} {required : Slot}
    (h : required.name ∈ slots.map (·.name)) (name slot : String) :
    checkOffset item slots user d required ≠ .error (.undeclaredOffsetSlot name slot) := by
  obtain ⟨kept, hkept⟩ := Option.isSome_iff_exists.mp (mem_names_iff_find?.mp h)
  simp only [checkOffset, hkept]
  split <;> exact nofun

/-- No offset is without a slot. -/
theorem compile_ne_undeclared (item : Item) (cell : AtlasCell) (settings : ModSettings)
    (name slot : String) :
    Definition.compile item cell settings ≠ .error (.undeclaredOffsetSlot name slot) := by
  intro h
  rcases fault_of_compile h with hname | hkey | hcheck
  · exact nomatch hname
  · exact nomatch hkey
  · obtain ⟨required, hmem, hfault⟩ := forM_eq_error hcheck
    obtain ⟨r, hr, hslot⟩ := exists_reading_of_required hmem
    have hdeclared := mem_names_of_declared (offset_declared hr hslot)
    exact checkOffset_ne_undeclared hdeclared name slot hfault

theorem resolved_of_offset {r : Reading} (hr : r ∈ itemReadings item settings) {raw key : String}
    {multiplier offset : Binary64} {var : GameVariable} (hvalue : r.value = .str raw)
    (hparse : Encoding.parse raw = .ok (.gameState key multiplier offset))
    (hvar : settings.registry.get? key = some var)
    (hoffset : offset.equals (.zero false) = false) :
    r.resolved.amount =
        .state var.template multiplier offset (Slot.read (offsetName var.label)) ∧
      r.resolved.offsetSlot = some { name := offsetName var.label, initial := .ofNumber offset } := by
  obtain ⟨d, s, -, hreading⟩ := exists_point_of_mem_readings hr
  obtain ⟨captures, hresolved⟩ := resolved_of_reading hreading
  have hstate : r.resolved = Resolved.ofGameState key multiplier offset settings.registry := by
    simp only [hresolved, hvalue, Resolved.ofValue, Encoding.isMarked_of_parse hparse, if_true, hparse]
  rw [hstate, Resolved.ofGameState_of_offset hvar hoffset]
  exact ⟨rfl, rfl⟩

/-- A name that is kept belongs to one slot. -/
theorem filter_name_of_kept {name : String} {value : Value}
    (h : Literals.kept (itemSlots item settings) name = some value) :
    ((itemSlots item settings).filter (·.name == name)).map (·.initial) = [value] := by
  have hnodup : ((itemSlots item settings).map (·.name)).Nodup := by
    rw [itemSlots_eq]
    exact nodup_firsts Slot.name _
  obtain ⟨slot, hfind, rfl⟩ := Option.map_eq_some_iff.mp h
  have hname : slot.name = name := by simpa using List.find?_some hfind
  obtain ⟨before, after, hsplit⟩ := List.append_of_mem (List.mem_of_find?_eq_some hfind)
  rw [hsplit, List.map_append, List.map_cons, List.nodup_middle, List.nodup_cons,
    ← List.map_append] at hnodup
  have hother : ∀ other ∈ before ++ after, other.name ≠ name := fun other hother heq =>
    hnodup.1 (hname ▸ heq ▸ List.mem_map_of_mem hother)
  have hbefore : before.filter (·.name == name) = [] :=
    List.filter_eq_nil_iff.mpr fun other h => by simpa using hother other (by simp [h])
  have hafter : after.filter (·.name == name) = [] :=
    List.filter_eq_nil_iff.mpr fun other h => by simpa using hother other (by simp [h])
  simp [hsplit, hbefore, hafter, hname]

/-- Every offset has a slot. If the item compiles, an offset stands in the one slot of its name,
which no variable has and no effect writes. -/
theorem offsets_keep_their_slots (item : Item) (cell : AtlasCell) (settings : ModSettings) :
    (∀ name slot, Definition.compile item cell settings ≠ .error (.undeclaredOffsetSlot name slot)) ∧
    ∀ definition, Definition.compile item cell settings = .ok definition →
      ∀ r ∈ itemReadings item settings, ∀ raw key multiplier offset var,
        r.value = .str raw → Encoding.parse raw = .ok (.gameState key multiplier offset) →
        settings.registry.get? key = some var → offset.equals (.zero false) = false →
        let name := offsetName var.label
        r.resolved.amount = .state var.template multiplier offset (Slot.read name) ∧
        (definition.slots.filter (·.name == name)).map (·.initial) = [.ofNumber offset] ∧
        name ∉ (userSlots item).map (·.name) ∧
        ∀ rule ∈ item.rules, rule.trigger ≠ .passive → ∀ e ∈ rule.everyEffect,
          e.target? ≠ some name := by
  refine ⟨compile_ne_undeclared item cell settings, ?_⟩
  intro definition hcompile r hr raw key multiplier offset var hvalue hparse hvar hoffset name
  obtain ⟨-, -, hcheck, rfl⟩ := compile_eq_ok_iff.mp hcompile
  obtain ⟨hamount, hslot⟩ := resolved_of_offset hr hvalue hparse hvar hoffset
  obtain ⟨hkept, hunwritten, hunclaimed⟩ := offset_kept hcheck hr hslot
  refine ⟨hamount, filter_name_of_kept hkept, ?_, ?_⟩
  · rw [← mem_map_firsts, ← authoredSlots_eq, ← any_name_iff, hunclaimed]
    exact Bool.false_ne_true
  · intro rule hrule htrigger e he htarget
    obtain ⟨t, captures, hfired⟩ := fired_mem_ofTriggered settings.registry hrule htrigger he
    obtain ⟨d, hpoint⟩ := mem_trace_of_mem settings.registry (passiveDraft item settings)
      hfired
    have hwritten := (grows_ruleDraft (List.mem_append_right _ hpoint)).written name
      (written_run settings.registry d t captures htarget)
    rw [hunwritten] at hwritten
    exact nomatch hwritten

/-- An item that reads the ante with one offset while it is owned, when it fires and by chance. -/
def anteWatcher : Item where
  id := "i"
  name := "Watcher"
  userVariables := [⟨"v", "Charge", .int 3, none⟩]
  rules := [
    { id := "p"
      trigger := .passive
      effects := [
        { id := "a", kind := .editHands, params := .ofList [("value", .str "GAMEVAR:ante|1|2.5")] }] },
    { id := "h"
      trigger := .handPlayed
      effects := [
        { id := "b", kind := .addMult, params := .ofList [("value", .str " GAMEVAR: ante |2|2.5")] },
        { id := "c"
          kind := .modifyInternalVariable
          params := .ofList [("variable_name", .str "charge")] }]
      randomGroups := [⟨"g", 1, 4, [
        { id := "d", kind := .addChips, params := .ofList [("value", .str "GAMEVAR:ante|3|2.5")] }]⟩] }]

theorem anteWatcher_keeps_offset :
    ∃ definition, Definition.compile anteWatcher ⟨0, ⟨0, 0⟩, none⟩ {} = .ok definition ∧
      definition.slots.map (·.name) = ["ante", "charge", "charge_change", "odds"] ∧
      (definition.slots.filter (·.name == "ante")).map (·.initial) =
        [.real (.nearest false 5 2)] := by
  obtain ⟨definition, hcompile, hslots⟩ := exists_compile anteWatcher ⟨0, ⟨0, 0⟩, none⟩ {}
    (by decide) (by decide) (by decide +kernel)
  refine ⟨definition, hcompile, hslots ▸ by decide +kernel, ?_⟩
  have hvalues : (itemReadings anteWatcher {}).map (·.value) =
      [.str "GAMEVAR:ante|1|2.5", .str " GAMEVAR: ante |2|2.5", .int 1,
        .str "GAMEVAR:ante|3|2.5"] := by decide +kernel
  obtain ⟨r, hr, hvalue⟩ := List.mem_map.mp (hvalues ▸ List.mem_cons_of_mem _ List.mem_cons_self :
    Value.str " GAMEVAR: ante |2|2.5" ∈ (itemReadings anteWatcher {}).map (·.value))
  have hkept := ((offsets_keep_their_slots anteWatcher ⟨0, ⟨0, 0⟩, none⟩ {}).2 definition hcompile
    r hr " GAMEVAR: ante |2|2.5" "ante" (.ofInt 2) (.nearest false 5 2)
    ⟨"G.GAME.round_resets.ante", "Ante"⟩ hvalue (by decide +kernel) (by decide +kernel)
    (by decide +kernel)).2.1
  exact hkept

end Offsets

end JokerRules
