import JokerRules.Proofs.RuleGroups

/-! The order of an item's rules. All that matters is the order of the passive effects, the order in
which the guards on the event come up, and under each guard the order of the rules with conditions
and of what the other rules do. -/

namespace JokerRules

open Calculate

section Merging

variable {registry : Registry} {guard : String} {free : List Rule} {m : Rule}

theorem guard?_of_no_condition {r : Rule} (h : r.hasAnyCondition = false) (registry : Registry) :
    r.guard? registry = none := by
  have hterms : (r.conditionGroups.map (·.termGroup r.trigger registry)).filterMap
      Guard.groupTerm? = [] := by
    refine List.filterMap_eq_nil_iff.mpr fun g hg => ?_
    obtain ⟨group, hgroup, rfl⟩ := List.mem_map.mp hg
    have hempty : group.conditions = [] := by
      simpa using List.any_eq_false.mp h group hgroup
    simp [ConditionGroup.termGroup, hempty, Guard.groupTerm?, Guard.join?]
  rw [Rule.guard?, guard?, Guard.fold?, hterms]
  rfl

theorem exists_eq_any {α : Type} {l : List α} (h : l ≠ []) (p : α → Bool) : ∃ a ∈ l, p a = l.any p := by
  by_cases hany : ∃ a ∈ l, p a
  · obtain ⟨a, ha, hp⟩ := hany
    exact ⟨a, ha, hp.trans (List.any_eq_true.mpr ⟨a, ha, hp⟩).symm⟩
  · obtain ⟨a, ha⟩ := List.exists_mem_of_ne_nil l h
    have hnone : l.any p = false := by simpa using hany
    exact ⟨a, ha, by simp_all⟩

/-- A rule that does what rules under one guard do fires under that guard. -/
theorem firingTest?_merged (hfree : free ≠ []) (htest : ∀ r ∈ free, r.firingTest? = some guard)
    (htrigger : ∀ r ∈ free, m.trigger = r.trigger)
    (heffects : m.effects = free.flatMap (·.effects))
    (hgroups : m.randomGroups = free.flatMap (·.randomGroups)) : m.firingTest? = some guard := by
  have hany : ∀ p : Effect → Bool, m.everyEffect.any p = free.any (·.everyEffect.any p) := by
    intro p
    rw [any_everyEffect, Rule.everyEffect, heffects, hgroups]
  by_cases hround : m.trigger = .roundEnd
  · obtain ⟨r, hr, hsaved⟩ := exists_eq_any hfree
      fun r => r.everyEffect.any (·.kind == .savedFromDeath)
    rw [← htest r hr, Rule.firingTest?, Rule.firingTest?, hany, ← hsaved, ← htrigger r hr, hround]
    rfl
  · obtain ⟨r, hr, hrepeats⟩ := exists_eq_any hfree (·.repeatsCards)
    have hm : m.repeatsCards = r.repeatsCards := (hany _).trans hrepeats.symm
    rw [← htest r hr, Rule.firingTest?, Rule.firingTest?, hm, ← htrigger r hr]
    simp [hround]

variable {rules before after : List Rule}

theorem flatMap_filter_insert {β : Type} {f : Rule → List β} {p : Rule → Bool} (h : p m → f m = []) :
    ((before ++ m :: after).filter p).flatMap f = ((before ++ after).filter p).flatMap f := by
  cases hp : p m <;> simp [hp, h]

/-- The rules but those without conditions under a guard. -/
def othersThan (registry : Registry) (guard : String) (rules : List Rule) : List Rule :=
  rules.filter fun r => !(r.firingTest? == some guard && (r.guard? registry).isSome == false)

theorem rulesUnder_others (rules : List Rule) :
    rulesUnder registry guard false (othersThan registry guard rules) = [] := by
  rw [rulesUnder, othersThan, List.filter_filter, List.filter_eq_nil_iff]
  simp

theorem filter_others {p : Rule → Bool}
    (h : ∀ r, p r → r.firingTest? = some guard → (r.guard? registry).isSome) (rules : List Rule) :
    (othersThan registry guard rules).filter p = rules.filter p := by
  rw [othersThan, List.filter_filter]
  refine List.filter_congr fun r _ => ?_
  cases hp : p r with
  | false => rfl
  | true =>
    have hr := h r hp
    by_cases htest : r.firingTest? = some guard
    · simp [htest, hr htest]
    · simp [htest]

/-- Under every guard the rules without conditions do what they did, whatever is counted. -/
theorem flatMap_rulesUnder_merged {β : Type} {f : Rule → List β}
    (hothers : before ++ after = othersThan registry guard rules) (hguard : m.guard? registry = none)
    (hm : m.firingTest? = some guard ∨ f m = [])
    (hf : f m = (rulesUnder registry guard false rules).flatMap f) (guard' : String) :
    (rulesUnder registry guard' false (before ++ m :: after)).flatMap f =
      (rulesUnder registry guard' false rules).flatMap f := by
  by_cases hsame : guard' = guard
  · subst guard'
    have hnone : rulesUnder registry guard false (before ++ after) = [] :=
      hothers ▸ rulesUnder_others rules
    rcases hm with htest | hidle
    · have hone : rulesUnder registry guard false (before ++ m :: after) = [m] := by
        rw [rulesUnder, List.filter_append, List.append_eq_nil_iff] at hnone
        rw [rulesUnder, List.filter_append, List.filter_cons, hnone.1, hnone.2]
        simp [htest, hguard]
      rw [hone, ← hf, List.flatMap_singleton]
    · calc (rulesUnder registry guard false (before ++ m :: after)).flatMap f
          = (rulesUnder registry guard false (before ++ after)).flatMap f :=
            flatMap_filter_insert fun _ => hidle
        _ = f m := by rw [hnone, hidle, List.flatMap_nil]
        _ = (rulesUnder registry guard false rules).flatMap f := hf
  · have hidle : m.firingTest? = some guard' → f m = [] := by
      intro htest'
      refine hm.resolve_left fun htest => hsame ?_
      exact Option.some.inj (htest'.symm.trans htest)
    calc (rulesUnder registry guard' false (before ++ m :: after)).flatMap f
        = (rulesUnder registry guard' false (before ++ after)).flatMap f :=
          flatMap_filter_insert fun hp => hidle (by simpa using (Bool.and_eq_true_iff.mp hp).1)
      _ = (rulesUnder registry guard' false rules).flatMap f := by
        have hrest : rulesUnder registry guard' false (othersThan registry guard rules) =
            rulesUnder registry guard' false rules := by
          refine filter_others (fun r hp htest => ?_) rules
          have htest' : r.firingTest? = some guard' := by
            simpa using (Bool.and_eq_true_iff.mp hp).1
          exact absurd (Option.some.inj (htest'.symm.trans htest)) hsame
        rw [hothers, hrest]

/-- One rule takes the place of all rules without conditions under a guard. -/
theorem sameGrouping_merged (hothers : before ++ after = othersThan registry guard rules)
    (hcondition : m.hasAnyCondition = false)
    (htrigger : ∀ r ∈ rulesUnder registry guard false rules, m.trigger = r.trigger)
    (heffects : m.effects = (rulesUnder registry guard false rules).flatMap (·.effects))
    (hgroups : m.randomGroups = (rulesUnder registry guard false rules).flatMap (·.randomGroups))
    (hguards : guardOrder (before ++ m :: after) = guardOrder rules) :
    SameGrouping registry rules (before ++ m :: after) := by
  have hguard := guard?_of_no_condition hcondition registry
  have hfires : ∀ r ∈ rulesUnder registry guard false rules, r.firingTest? = some guard := by
    intro r hr
    simpa using (Bool.and_eq_true_iff.mp (List.mem_filter.mp hr).2).1
  have hm : m.firingTest? = some guard ∨ rulesUnder registry guard false rules = [] := by
    refine or_iff_not_imp_right.mpr fun hfree => ?_
    exact firingTest?_merged hfree hfires htrigger heffects hgroups
  refine ⟨?_, hguards, fun guard' => ?_, ?_, ?_⟩
  · have hpassive : m.trigger = .passive → m.effects = [] := by
      intro htrigger'
      rcases hm with htest | hfree
      · exact absurd htest (by simp [Rule.firingTest?_passive htrigger'])
      · rw [heffects, hfree, List.flatMap_nil]
    have hothers' : (before ++ after).filter (·.trigger == .passive) =
        rules.filter (·.trigger == .passive) := by
      rw [hothers]
      refine filter_others (fun r hp htest => ?_) rules
      exact absurd htest (by simp [Rule.firingTest?_passive (beq_iff_eq.mp hp)])
    rw [flatMap_filter_insert fun hp => hpassive (beq_iff_eq.mp hp), hothers']
  · have hothers' : rulesUnder registry guard' true (before ++ after) =
        rulesUnder registry guard' true rules := by
      rw [hothers]
      exact filter_others (fun r hp _ => by simpa using (Bool.and_eq_true_iff.mp hp).2) rules
    rw [← hothers', rulesUnder, rulesUnder, List.filter_append, List.filter_append, List.filter_cons]
    simp [hguard]
  · refine flatMap_rulesUnder_merged hothers hguard (hm.imp_right fun hfree => ?_) heffects
    rw [heffects, hfree, List.flatMap_nil]
  · refine flatMap_rulesUnder_merged hothers hguard (hm.imp_right fun hfree => ?_) hgroups
    rw [hgroups, hfree, List.flatMap_nil]

end Merging

/-- The definition of an item is the same when its rules change places but not within their groups,
and when one rule does what the rules without conditions do under a guard. -/
theorem compile_keeps_grouping (item : Item) (cell : AtlasCell) (settings : ModSettings) :
    (∀ rules' : List Rule,
      rules'.filter (·.trigger == .passive) = item.rules.filter (·.trigger == .passive) →
      guardOrder rules' = guardOrder item.rules →
      (∀ guard conditional, rulesUnder settings.registry guard conditional rules' =
        rulesUnder settings.registry guard conditional item.rules) →
      Definition.compile { item with rules := rules' } cell settings =
        Definition.compile item cell settings) ∧
    ∀ guard before m after,
      let free := rulesUnder settings.registry guard false item.rules
      before ++ after = othersThan settings.registry guard item.rules →
      m.hasAnyCondition = false → (∀ r ∈ free, m.trigger = r.trigger) →
      m.effects = free.flatMap (·.effects) → m.randomGroups = free.flatMap (·.randomGroups) →
      guardOrder (before ++ m :: after) = guardOrder item.rules →
      Definition.compile { item with rules := before ++ m :: after } cell settings =
        Definition.compile item cell settings := by
  constructor
  · intro rules' hpassive hguards hunder
    refine compile_congr ⟨by rw [hpassive], hguards, fun guard => hunder guard true, ?_, ?_⟩ cell
    · exact fun guard => by rw [hunder guard false]
    · exact fun guard => by rw [hunder guard false]
  · intro guard before m after free hothers hcondition htrigger heffects hgroups hguards
    exact compile_congr
      (sameGrouping_merged hothers hcondition htrigger heffects hgroups hguards) cell

namespace Juggler

def richChips : Rule where
  id := "a"
  trigger := .handPlayed
  conditionGroups := [{ conditions := [{ id := "c", kind := .playerMoney }] }]
  effects := [{ id := "e", kind := .addChips }]

def mult : Rule where
  id := "b"
  trigger := .handPlayed
  effects := [{ id := "f", kind := .addMult }]

def again : Rule where
  id := "c"
  trigger := .cardScored
  effects := [{ id := "h", kind := .retrigger }]

def largerHand : Rule where
  id := "d"
  trigger := .passive
  effects := [{ id := "i", kind := .editHandSize }]

def luckyDollars : Rule where
  id := "e"
  trigger := .handPlayed
  effects := [{ id := "j", kind := .addChips }]
  randomGroups := [⟨"k", 1, 2, [{ id := "l", kind := .addDollars }]⟩]

def merged : Rule where
  id := "m"
  trigger := .handPlayed
  effects := mult.effects ++ luckyDollars.effects
  randomGroups := luckyDollars.randomGroups

def juggler (rules : List Rule) : Item where
  id := "i"
  name := "Juggler"
  rules := rules

end Juggler

open Juggler in
/-- Rules in another order, and with two of them as one, make the same card. -/
theorem juggler_regrouped :
    ∃ d, Definition.compile (juggler [richChips, mult, again, largerHand, luckyDollars])
        ⟨0, ⟨0, 0⟩, none⟩ {} = .ok d ∧
      Definition.compile (juggler [mult, largerHand, richChips, luckyDollars, again])
        ⟨0, ⟨0, 0⟩, none⟩ {} = .ok d ∧
      Definition.compile (juggler [richChips, again, merged, largerHand])
        ⟨0, ⟨0, 0⟩, none⟩ {} = .ok d := by
  let authored := [richChips, mult, again, largerHand, luckyDollars]
  let moved := [mult, largerHand, richChips, luckyDollars, again]
  have hunder : ∀ guard conditional,
      rulesUnder .builtin guard conditional moved = rulesUnder .builtin guard conditional authored := by
    intro guard conditional
    have hrich : richChips.firingTest? = mult.firingTest? := by decide
    have hlucky : luckyDollars.firingTest? = mult.firingTest? := by decide
    have hpassive : largerHand.firingTest? = none := by decide
    have hconditional : richChips.guard? .builtin ≠ none := by decide +kernel
    have hfree : ∀ r ∈ [mult, luckyDollars, again], r.guard? .builtin = none := by
      decide +kernel
    by_cases hguard : mult.firingTest? = some guard
    · have hagain : again.firingTest? ≠ some guard := hguard ▸ by decide
      cases conditional <;>
        simp_all [rulesUnder, authored, moved, Option.isSome_iff_ne_none]
    · simp [rulesUnder, authored, moved, List.filter_cons, hrich, hlucky, hpassive, hguard]
  obtain ⟨d, hd, -⟩ := Definition.exists_compile (juggler authored) ⟨0, ⟨0, 0⟩, none⟩ {}
    (by decide) (by decide) (by decide +kernel)
  obtain ⟨hmoved, hmerged⟩ := compile_keeps_grouping (juggler authored) ⟨0, ⟨0, 0⟩, none⟩ {}
  refine ⟨d, hd, (hmoved moved (by decide) (by decide +kernel) hunder).trans hd, ?_⟩
  refine (hmerged "context.cardarea == G.jokers and context.joker_main" [richChips, again] merged
    [largerHand] ?_ ?_ ?_ ?_ ?_ ?_).trans hd <;> decide +kernel

end JokerRules
