import JokerRules.Mod

/-! What a successful compilation consists of. -/

namespace JokerRules

open Text

namespace Definition

/-- The result of compiling the rules of an item, and the draft that they leave. -/
def ruleResult (item : Item) (settings : ModSettings) : (DeckCode × Option String) × Draft :=
  (compileRules item settings.registry).run { owner := settings.itemKey item.slug }

def ruleDraft (item : Item) (settings : ModSettings) : Draft :=
  (ruleResult item settings).2

def itemSlots (item : Item) (settings : ModSettings) : List Slot :=
  Storage.slots (Storage.authoredSlots item) (ruleDraft item settings)

def itemEntries (item : Item) (cell : AtlasCell) (settings : ModSettings) : List String :=
  entries item cell settings (itemSlots item settings) (ruleDraft item settings)
    (ruleResult item settings).1.2 (ruleResult item settings).1.1

theorem map_of_checked (check : Except ItemFault Unit) (value : Definition) :
    (match check with
      | .error e => .error e
      | .ok () => .ok value) = check.map fun _ => value := by
  cases check <;> rfl

theorem compile_eq (item : Item) (cell : AtlasCell) (settings : ModSettings) :
    compile item cell settings =
      if trim item.name = "" then .error (.missingName item.id)
      else if item.slug = "" then .error (.invalidKey item.name)
      else (Storage.checkOffsets item (itemSlots item settings) (Storage.authoredSlots item)
        (ruleDraft item settings)).map fun _ => {
          key := settings.itemKey item.slug
          source := "SMODS.Joker " ++ table (itemEntries item cell settings)
          slots := itemSlots item settings
          requests := (ruleResult item settings).1.1.requests } := by
  unfold compile
  split
  · rfl
  split
  · rfl
  refine Eq.trans ?_ (map_of_checked _ _)
  rfl

theorem compile_eq_ok_iff {item : Item} {cell : AtlasCell} {settings : ModSettings}
    {definition : Definition} :
    compile item cell settings = .ok definition ↔
      trim item.name ≠ "" ∧ item.slug ≠ "" ∧
      Storage.checkOffsets item (itemSlots item settings) (Storage.authoredSlots item)
        (ruleDraft item settings) = .ok () ∧
      definition = {
        key := settings.itemKey item.slug
        source := "SMODS.Joker " ++ table (itemEntries item cell settings)
        slots := itemSlots item settings
        requests := (ruleResult item settings).1.1.requests } := by
  rw [compile_eq]
  by_cases hname : trim item.name = ""
  · simp [hname]
  by_cases hslug : item.slug = ""
  · simp [hname, hslug]
  rw [if_neg hname, if_neg hslug]
  cases Storage.checkOffsets item (itemSlots item settings) (Storage.authoredSlots item)
      (ruleDraft item settings) with
  | error e => simp [Except.map]
  | ok u => simp [Except.map, hname, hslug, eq_comm]

/-- The faults of an item: a missing name, a missing key, or that of its offsets. -/
theorem fault_of_compile {item : Item} {cell : AtlasCell} {settings : ModSettings}
    {fault : ItemFault} (h : compile item cell settings = .error fault) :
    fault = .missingName item.id ∨ fault = .invalidKey item.name ∨
      Storage.checkOffsets item (itemSlots item settings) (Storage.authoredSlots item)
        (ruleDraft item settings) = .error fault := by
  rw [compile_eq] at h
  split at h
  · exact .inl (Except.error.inj h).symm
  split at h
  · exact .inr (.inl (Except.error.inj h).symm)
  refine .inr (.inr ?_)
  cases hcheck : Storage.checkOffsets item (itemSlots item settings) (Storage.authoredSlots item)
      (ruleDraft item settings) with
  | error e =>
    rw [hcheck] at h
    rw [Except.error.inj h]
  | ok u =>
    rw [hcheck] at h
    cases h

theorem exists_compile (item : Item) (cell : AtlasCell) (settings : ModSettings)
    (hname : trim item.name ≠ "") (hslug : item.slug ≠ "")
    (hcheck : Storage.checkOffsets item (itemSlots item settings) (Storage.authoredSlots item)
      (ruleDraft item settings) = .ok ()) :
    ∃ definition, compile item cell settings = .ok definition ∧
      definition.slots = itemSlots item settings :=
  ⟨_, compile_eq_ok_iff.mpr ⟨hname, hslug, hcheck, rfl⟩, rfl⟩

end Definition

end JokerRules
