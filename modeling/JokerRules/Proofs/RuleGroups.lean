import JokerRules.Proofs.Pruning

/-! Rules under one guard. The code of an item is found from the order of the passive effects, the
order in which the guards come up, and under each guard the rules with conditions and what the
others do. -/

namespace JokerRules

open Calculate

/-- The rules that fire under a guard on the event: those with conditions, or those without. -/
def rulesUnder (registry : Registry) (guard : String) (conditional : Bool) (rules : List Rule) :
    List Rule :=
  rules.filter fun r => r.firingTest? == some guard && (r.guard? registry).isSome == conditional

/-- The guards on the event, in the order in which they first occur. -/
def guardOrder (rules : List Rule) : List String :=
  (rules.filterMap (·.firingTest?)).eraseDups

/-- Two lists of rules agree in what the definition of an item takes from them. -/
structure SameGrouping (registry : Registry) (rules rules' : List Rule) : Prop where
  passive : (rules'.filter (·.trigger == .passive)).flatMap (·.effects) =
    (rules.filter (·.trigger == .passive)).flatMap (·.effects)
  guards : guardOrder rules' = guardOrder rules
  conditional : ∀ guard, rulesUnder registry guard true rules' = rulesUnder registry guard true rules
  effects : ∀ guard, (rulesUnder registry guard false rules').flatMap (·.effects) =
    (rulesUnder registry guard false rules).flatMap (·.effects)
  groups : ∀ guard, (rulesUnder registry guard false rules').flatMap (·.randomGroups) =
    (rulesUnder registry guard false rules).flatMap (·.randomGroups)

theorem Rule.firingTest?_passive {r : Rule} (h : r.trigger = .passive) : r.firingTest? = none := by
  simp [Rule.firingTest?, h, Trigger.eventTest?]

/-- Rules under one guard on the event have one trigger. -/
theorem Rule.trigger_eq_of_firingTest? {r r' : Rule} {guard : String}
    (h : r.firingTest? = some guard) (h' : r'.firingTest? = some guard) : r'.trigger = r.trigger := by
  have htest := Trigger.ofTest?_of_mem (firingTest?_mem h)
  have htest' := Trigger.ofTest?_of_mem (firingTest?_mem h')
  exact Option.some.inj (htest'.symm.trans htest)

section Block

variable {registry : Registry} {rules rules' : List Rule}

theorem branches_conditional (rules : List Rule) :
    branches registry (rules.filter fun r => (r.guard? registry).isSome) =
      branches registry rules := by
  induction rules with
  | nil => rfl
  | cons r rules ih =>
    cases hguard : r.guard? registry with
    | none => simp [branches, hguard, ih]
    | some guard => simp [branches, hguard, ih]

theorem fallback?_eq {r : Rule} (hr : r ∈ rules) (h : ∀ r' ∈ rules, r'.trigger = r.trigger) :
    fallback? registry rules = firing? ((freeRules registry rules).flatMap (·.effects))
      ((freeRules registry rules).flatMap (·.randomGroups)) r.trigger registry := by
  have hlast : rules.getLast? = some (rules.getLast (List.ne_nil_of_mem hr)) :=
    List.getLast?_eq_some_getLast _
  rw [fallback?, hlast, ← h _ (List.getLast_mem (List.ne_nil_of_mem hr))]
  rfl

theorem any_everyEffect (rules : List Rule) (p : Effect → Bool) :
    rules.any (·.everyEffect.any p) =
      (rules.flatMap (·.effects) ++ (rules.flatMap (·.randomGroups)).flatMap (·.effects)).any p := by
  induction rules with
  | nil => rfl
  | cons r rules ih =>
    rw [List.any_cons, ih]
    simp only [Rule.everyEffect, List.flatMap_cons, List.flatMap_append, List.any_append]
    ac_rfl

theorem any_changesCard_split (registry : Registry) (rules : List Rule) :
    rules.any (·.changesCard) =
      ((rules.filter fun r => (r.guard? registry).isSome).any (·.changesCard) ||
        (freeRules registry rules).any (·.changesCard)) := by
  rw [freeRules]
  induction rules with
  | nil => rfl
  | cons r rules ih =>
    rw [List.any_cons, ih]
    cases hguard : r.guard? registry with
    | none => simp [hguard, Bool.or_left_comm]
    | some guard => simp [hguard, Bool.or_assoc]

theorem filter_rulesUnder (guard : String) (rules : List Rule) :
    (rules.filter (·.firingTest? == some guard)).filter (fun r => (r.guard? registry).isSome) =
      rulesUnder registry guard true rules := by
  simp [rulesUnder, List.filter_filter, Bool.and_comm]

theorem freeRules_rulesUnder (guard : String) (rules : List Rule) :
    freeRules registry (rules.filter (·.firingTest? == some guard)) =
      rulesUnder registry guard false rules := by
  simp [freeRules, rulesUnder, List.filter_filter, Bool.and_comm]

theorem exists_of_mem_guardOrder {guard : String} (h : guard ∈ guardOrder rules) :
    ∃ r ∈ rules.filter (·.firingTest? == some guard), r.firingTest? = some guard := by
  obtain ⟨r, hr, htest⟩ := List.mem_filterMap.mp (List.mem_eraseDups.mp h)
  exact ⟨r, List.mem_filter.mpr ⟨hr, by simp [htest]⟩, htest⟩

theorem block?_congr (h : SameGrouping registry rules rules') {guard : String}
    (hguard : guard ∈ guardOrder rules) :
    block? registry guard (rules'.filter (·.firingTest? == some guard)) =
      block? registry guard (rules.filter (·.firingTest? == some guard)) := by
  have hbranches : branches registry (rules'.filter (·.firingTest? == some guard)) =
      branches registry (rules.filter (·.firingTest? == some guard)) := by
    rw [← branches_conditional, filter_rulesUnder, h.conditional, ← filter_rulesUnder,
      branches_conditional]
  have hfallback : fallback? registry (rules'.filter (·.firingTest? == some guard)) =
      fallback? registry (rules.filter (·.firingTest? == some guard)) := by
    obtain ⟨r, hr, htest⟩ := exists_of_mem_guardOrder hguard
    obtain ⟨r', hr', htest'⟩ := exists_of_mem_guardOrder (h.guards ▸ hguard)
    have htrigger : ∀ rules : List Rule, ∀ r₁ ∈ rules.filter (·.firingTest? == some guard),
        r₁.trigger = r.trigger := by
      intro rules r₁ hr₁
      exact Rule.trigger_eq_of_firingTest? htest (by simpa using (List.mem_filter.mp hr₁).2)
    rw [fallback?_eq hr (htrigger rules),
      fallback?_eq hr' fun r₁ hr₁ => (htrigger rules' r₁ hr₁).trans (htrigger rules' r' hr').symm,
      freeRules_rulesUnder, freeRules_rulesUnder, h.effects, h.groups, htrigger rules' r' hr']
  have hcard : (rules'.filter (·.firingTest? == some guard)).any (·.changesCard) =
      (rules.filter (·.firingTest? == some guard)).any (·.changesCard) := by
    have hfree : (rulesUnder registry guard false rules').any (·.changesCard) =
        (rulesUnder registry guard false rules).any (·.changesCard) := by
      simp only [Rule.changesCard, any_everyEffect, h.effects, h.groups]
    rw [any_changesCard_split registry, filter_rulesUnder, freeRules_rulesUnder, h.conditional, hfree,
      ← filter_rulesUnder, ← freeRules_rulesUnder, ← any_changesCard_split]
  rw [block?, hbranches, hfallback, hcard, block?]

theorem guardBlocks_congr {guards : List String} {block block' : String → List Rule}
    (h : ∀ guard ∈ guards, block? registry guard (block' guard) = block? registry guard (block guard)) :
    guardBlocks registry (guards.map fun guard => (guard, block' guard)) =
      guardBlocks registry (guards.map fun guard => (guard, block guard)) := by
  induction guards with
  | nil => rfl
  | cons guard guards ih =>
    obtain ⟨hguard, hguards⟩ := List.forall_mem_cons.mp h
    rw [List.map_cons, List.map_cons, guardBlocks, guardBlocks, hguard, ih hguards]

/-- Passive rules have no guard on the event. -/
theorem byGuard_eq (rules : List Rule) :
    byGuard (rules.filter (·.trigger != .passive)) =
      (guardOrder rules).map fun guard => (guard, rules.filter (·.firingTest? == some guard)) := by
  have htests : (rules.filter (·.trigger != .passive)).filterMap (·.firingTest?) =
      rules.filterMap (·.firingTest?) := by
    rw [List.filterMap_filter]
    refine List.filterMap_congr fun r _ => ?_
    by_cases hr : r.trigger = .passive
    · simp [hr, Rule.firingTest?_passive hr]
    · simp [hr]
  have hblock : ∀ guard, (rules.filter (·.trigger != .passive)).filter (·.firingTest? == some guard) =
      rules.filter (·.firingTest? == some guard) := by
    intro guard
    rw [List.filter_filter]
    refine List.filter_congr fun r _ => ?_
    by_cases hr : r.trigger = .passive
    · simp [hr, Rule.firingTest?_passive hr]
    · simp [hr]
  simp only [byGuard, guardOrder, htests, hblock]

end Block

theorem compileRules_congr {item item' : Item} {registry : Registry}
    (h : SameGrouping registry item.rules item'.rules) :
    Definition.compileRules item' registry = Definition.compileRules item registry := by
  have hpassive : DeckCode.compile item'.rules registry = DeckCode.compile item.rules registry := by
    rw [DeckCode.compile, h.passive, DeckCode.compile]
  have hblocks := guardBlocks_congr fun guard hguard => block?_congr h hguard
  have hcalculate : Calculate.compile item'.rules registry = Calculate.compile item.rules registry := by
    rw [Calculate.compile, byGuard_eq, h.guards, hblocks, ← byGuard_eq, Calculate.compile]
  rw [Definition.compileRules, hpassive, hcalculate, Definition.compileRules]

theorem compile_congr {item : Item} {rules' : List Rule} {settings : ModSettings}
    (h : SameGrouping settings.registry item.rules rules') (cell : AtlasCell) :
    Definition.compile { item with rules := rules' } cell settings =
      Definition.compile item cell settings := by
  have hrules : Definition.compileRules { item with rules := rules' } settings.registry =
      Definition.compileRules item settings.registry := compileRules_congr h
  unfold Definition.compile
  rw [hrules]
  rfl

end JokerRules
