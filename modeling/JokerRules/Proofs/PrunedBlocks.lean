import JokerRules.Proofs.DroppedFirings
import JokerRules.Proofs.GivingUp

/-! Blocks of rules without the effects that mean nothing. The code of a block differs from that of
the whole block exactly where a dropped effect leaves a trace. -/

namespace JokerRules

open Text Step

/-- The rule without its dropped effects. -/
def Rule.pruned (owner : String) (r : Rule) : Rule :=
  { r with
    effects := if r.trigger = .passive then r.effects.filter fun e => (e.heldPlan? owner).isSome
      else kept r.trigger r.effects
    randomGroups := r.randomGroups.map (·.pruned r.trigger) }

def Item.pruned (owner : String) (item : Item) : Item :=
  { item with rules := item.rules.map (·.pruned owner) }

section Rule

variable (owner : String) {r : Rule}

theorem Rule.effects_pruned (h : r.trigger ≠ .passive) :
    (r.pruned owner).effects = kept r.trigger r.effects :=
  if_neg h

theorem Rule.everyEffect_pruned (h : r.trigger ≠ .passive) :
    (r.pruned owner).everyEffect = kept r.trigger r.everyEffect := by
  have hgroups : (r.pruned owner).randomGroups.flatMap (·.effects) =
      kept r.trigger (r.randomGroups.flatMap (·.effects)) := by
    rw [kept, List.filter_flatMap]
    exact List.flatMap_map _ _ _
  rw [Rule.everyEffect, Rule.effects_pruned owner h, hgroups, Rule.everyEffect]
  exact (List.filter_append _ _).symm

/-- The effects that move the test of a rule always mean something where they do. -/
theorem firingTest?_pruned (owner : String) (r : Rule) :
    (r.pruned owner).firingTest? = r.firingTest? := by
  by_cases hpassive : r.trigger = .passive
  · have htrigger : (r.pruned owner).trigger = .passive := hpassive
    simp [Rule.firingTest?, htrigger, hpassive, Trigger.eventTest?]
  have htrigger : (r.pruned owner).trigger = r.trigger := rfl
  have hsaved : r.trigger = .roundEnd →
      (r.pruned owner).everyEffect.any (·.kind == .savedFromDeath) =
        r.everyEffect.any (·.kind == .savedFromDeath) := by
    intro hround
    rw [Rule.everyEffect_pruned owner hpassive]
    refine any_kept fun e he => ?_
    simp [Effect.plan?, eq_of_beq he, hround]
  have hrepeats : r.trigger.hasRepetition = true →
      (r.pruned owner).repeatsCards = r.repeatsCards := by
    intro hrepetition
    rw [Rule.repeatsCards, Rule.repeatsCards, Rule.everyEffect_pruned owner hpassive]
    refine any_kept fun e he => ?_
    have hkind : e.kind = .retrigger := by simpa [EffectKind.repeatsCard] using he
    simp [Effect.plan?, hkind, hrepetition]
  unfold Rule.firingTest?
  rw [htrigger]
  have hevent : ((r.pruned owner).repeatsCards && r.trigger.hasRepetition) =
      (r.repeatsCards && r.trigger.hasRepetition) := by
    cases hrepetition : r.trigger.hasRepetition with
    | false => simp
    | true => rw [hrepeats hrepetition]
  by_cases hround : r.trigger = .roundEnd
  · rw [hsaved hround, hevent]
  · simp [hround, hevent]

end Rule

/-- Branches with the same guards and matching code. -/
structure BranchesMatch (P : Prop) (present : Bool) (bs bs' : List (String × String)) : Prop where
  guards : bs.map Prod.fst = bs'.map Prod.fst
  codes : Matches P present (bs.map Prod.snd) (bs'.map Prod.snd)

namespace BranchesMatch

variable {P Q : Prop} {present present' : Bool} {bs bs' cs cs' : List (String × String)}

theorem append (h : BranchesMatch P present bs bs') (h' : BranchesMatch Q present' cs cs') :
    BranchesMatch (P ∧ Q) (present || present') (bs ++ cs) (bs' ++ cs') := by
  refine ⟨?_, ?_⟩
  · rw [List.map_append, List.map_append, h.guards, h'.guards]
  · rw [List.map_append, List.map_append]
    exact h.codes.append h'.codes

/-- The code of a rule, if any, behind its guard. -/
theorem ofCode {code code' : Option String} (h : Matches P present code.toList code'.toList)
    (guard : String) : BranchesMatch P present (code.toList.map fun c => (guard, c))
      (code'.toList.map fun c => (guard, c)) := by
  refine ⟨?_, ?_⟩
  · simp only [List.map_map, Function.comp_def, List.map_const', h.length]
  · simpa only [List.map_map, Function.comp_def, List.map_id'] using h

end BranchesMatch

/-- The ink of a chain beside that of the code of its branches. -/
theorem ink_chain (bs : List (String × String)) (fallback : Option String) :
    inkAll (Calculate.chain? bs fallback).toList =
      inkAll (Calculate.chain? ((bs.map Prod.fst).map (·, "")) (fallback.map fun _ => "")).toList +
        inkAll (bs.map Prod.snd ++ fallback.toList) := by
  have hempty : ink (indent 1 "") = 0 := by decide
  have hlater : ∀ rest : List (String × String), inkAll (Calculate.laterBranches rest) =
      inkAll (Calculate.laterBranches ((rest.map Prod.fst).map (·, ""))) +
        inkAll (rest.map Prod.snd) := by
    intro rest
    induction rest with
    | nil => rfl
    | cons b rest ih =>
      simp only [Calculate.laterBranches] at ih
      simp only [Calculate.laterBranches, List.flatMap_cons, List.map_cons, inkAll_append,
        inkAll_cons, inkAll_nil, ink_indent 1 b.2, hempty, ih]
      omega
  cases bs with
  | nil => cases fallback <;> simp [Calculate.chain?, ink, inkOf]
  | cons b rest =>
    cases fallback with
    | none =>
      simp only [Calculate.chain?, Option.toList_some, List.map_cons, inkAll_cons, inkAll_nil,
        ink_unlines, inkAll_append, hlater rest, ink_indent 1 b.2, hempty, Option.map_none,
        Option.toList_none]
      omega
    | some code =>
      simp only [Calculate.chain?, Option.toList_some, List.map_cons, inkAll_cons, inkAll_nil,
        ink_unlines, inkAll_append, hlater rest, ink_indent 1 b.2, ink_indent 1 code, hempty,
        Option.map_some]
      omega

theorem matches_chain {P Q : Prop} {present present' : Bool} {bs bs' : List (String × String)}
    {fallback fallback' : Option String} (h : BranchesMatch P present bs bs')
    (hlast : Matches Q present' fallback.toList fallback'.toList) :
    Matches (P ∧ Q) (present || present') (Calculate.chain? bs fallback).toList
      (Calculate.chain? bs' fallback').toList := by
  have hcodes := h.codes.append hlast
  have hlength : bs.length = bs'.length := by simpa using congrArg List.length h.guards
  have hframe : (fallback.map fun _ => "") = fallback'.map fun _ => "" := by
    have hlength := hlast.length
    cases fallback <;> cases fallback' <;> simp_all
  have hempty : ∀ (bs : List (String × String)) (last : Option String),
      (Calculate.chain? bs last).toList.isEmpty = (bs.map Prod.snd ++ last.toList).isEmpty := by
    intro bs last
    cases bs <;> rfl
  have hcount : ∀ (bs : List (String × String)) (last : Option String),
      (Calculate.chain? bs last).toList.length = if bs = [] then last.toList.length else 1 := by
    intro bs last
    cases bs <;> rfl
  refine ⟨(hempty bs fallback).trans hcodes.isEmpty, ?_, ?_⟩
  · have hnil : bs = [] ↔ bs' = [] := by
      rw [← List.length_eq_zero_iff, hlength, List.length_eq_zero_iff]
    simp only [hcount, hlast.length, hnil]
  · refine hcodes.outgrows.transfer (fun heq => ?_) (ink_chain bs fallback) ?_
    · obtain ⟨hsnd, hlists⟩ := List.append_inj heq (by simpa using hlength)
      have hbs : bs = bs' := (List.zip_of_prod h.guards hsnd).trans (List.zip_of_prod rfl rfl).symm
      have hfallback : fallback = fallback' := by
        cases fallback <;> cases fallback' <;> simp_all
      rw [hbs, hfallback]
    · rw [h.guards, hframe]
      exact ink_chain bs' fallback'

section Block

variable (registry : Registry) (owner : String) {t : Trigger} {rules : List Rule}

/-- The rules without conditions, which are compiled together. -/
def freeRules (registry : Registry) (rules : List Rule) : List Rule :=
  rules.filter fun r => (r.guard? registry).isNone

/-- The dropped effects of rules under one trigger and one guard on the event leave nothing in their
block. -/
structure Traceless (registry : Registry) (t : Trigger) (rules : List Rule) : Prop where
  guarded : ∀ r ∈ rules, (r.guard? registry).isSome → FiresAlike t r.effects r.randomGroups
  free : FiresAlike t ((freeRules registry rules).flatMap (·.effects))
    ((freeRules registry rules).flatMap (·.randomGroups))
  /-- If a block with code is closed to copies, then for an effect that is kept. -/
  card : (∃ r ∈ rules, hasCode t r.everyEffect) → (∃ r ∈ rules, r.changesCard) →
    ∃ r ∈ rules, ∃ e ∈ kept t r.everyEffect,
      e.kind = .modifyInternalVariable ∨ e.kind = .destroySelf

instance (t : Trigger) (rules : List Rule) : Decidable (Traceless registry t rules) :=
  decidable_of_iff
    ((∀ r ∈ rules, (r.guard? registry).isSome → FiresAlike t r.effects r.randomGroups) ∧
      FiresAlike t ((freeRules registry rules).flatMap (·.effects))
        ((freeRules registry rules).flatMap (·.randomGroups)) ∧
      ((∃ r ∈ rules, hasCode t r.everyEffect) → (∃ r ∈ rules, r.changesCard) →
        ∃ r ∈ rules, ∃ e ∈ kept t r.everyEffect,
          e.kind = .modifyInternalVariable ∨ e.kind = .destroySelf))
    ⟨fun h => ⟨h.1, h.2.1, h.2.2⟩, fun h => ⟨h.guarded, h.free, h.card⟩⟩

theorem firesCode_eq (t : Trigger) (r : Rule) :
    firesCode t r.effects r.randomGroups = hasCode t r.everyEffect := by
  simp only [firesCode, hasCode, Rule.everyEffect, List.any_append, List.any_flatMap]

theorem firesCode_flatMap (t : Trigger) (rules : List Rule) :
    firesCode t (rules.flatMap (·.effects)) (rules.flatMap (·.randomGroups)) =
      rules.any fun r => hasCode t r.everyEffect := by
  induction rules with
  | nil => rfl
  | cons r rules ih =>
    rw [List.any_cons, ← ih, ← firesCode_eq]
    simp only [firesCode, hasCode, List.flatMap_cons, List.any_append]
    ac_rfl

theorem tracks_branches (h : ∀ r ∈ rules, r.trigger = t) (ht : t ≠ .passive) :
    Tracks (BranchesMatch
        (∀ r ∈ rules, (r.guard? registry).isSome → FiresAlike t r.effects r.randomGroups)
        (rules.any fun r => (r.guard? registry).isSome && hasCode t r.everyEffect))
      (Calculate.branches registry rules)
      (Calculate.branches registry (rules.map (·.pruned owner))) := by
  induction rules with
  | nil => exact tracks_pure ⟨rfl, Matches.nil.congr (by simp)⟩
  | cons r rules ih =>
    obtain ⟨hr, hrest⟩ := List.forall_mem_cons.mp h
    have hguard : (r.pruned owner).guard? registry = r.guard? registry := rfl
    simp only [Calculate.branches, List.map_cons, hguard, List.any_cons, List.forall_mem_cons]
    cases r.guard? registry with
    | none => simpa using ih hrest
    | some guard =>
      subst hr
      have hfiring := tracks_firing r.effects r.randomGroups r.trigger registry
      rw [firesCode_eq, ← Rule.effects_pruned owner ht] at hfiring
      refine hfiring.bind fun code code' hcode => ?_
      refine (ih hrest).map fun bs bs' hbs => ?_
      have hall := (BranchesMatch.ofCode hcode guard).append hbs
      simpa using hall

theorem flatMap_pruned_effects (h : ∀ r ∈ rules, r.trigger = t) (ht : t ≠ .passive) :
    (rules.map (·.pruned owner)).flatMap (·.effects) = kept t (rules.flatMap (·.effects)) := by
  rw [List.flatMap_map, kept, List.filter_flatMap]
  refine List.flatMap_congr fun r hr => ?_
  have hr := h r hr
  subst hr
  exact Rule.effects_pruned owner ht

theorem flatMap_pruned_groups (h : ∀ r ∈ rules, r.trigger = t) :
    (rules.map (·.pruned owner)).flatMap (·.randomGroups) =
      (rules.flatMap (·.randomGroups)).map (·.pruned t) := by
  rw [List.flatMap_map, List.map_flatMap]
  refine List.flatMap_congr fun r hr => ?_
  rw [← h r hr]
  rfl

theorem freeRules_pruned (rules : List Rule) :
    freeRules registry (rules.map (·.pruned owner)) =
      (freeRules registry rules).map (·.pruned owner) :=
  List.filter_map

theorem tracks_fallback (h : ∀ r ∈ rules, r.trigger = t) (ht : t ≠ .passive) :
    Tracks (fun code code' => Matches
        (FiresAlike t ((freeRules registry rules).flatMap (·.effects))
          ((freeRules registry rules).flatMap (·.randomGroups)))
        ((freeRules registry rules).any fun r => hasCode t r.everyEffect)
        code.toList code'.toList)
      (Calculate.fallback? registry rules)
      (Calculate.fallback? registry (rules.map (·.pruned owner))) := by
  have hfree : ∀ r ∈ freeRules registry rules, r.trigger = t :=
    fun r hr => h r (List.mem_of_mem_filter hr)
  unfold Calculate.fallback?
  rw [List.getLast?_map]
  cases hlast : rules.getLast? with
  | none =>
    rw [List.getLast?_eq_none_iff.mp hlast]
    exact tracks_pure (Matches.nil.congr (iff_of_true trivial ⟨rfl, by simp [freeRules]⟩))
  | some last =>
    have htrigger : last.trigger = t := h last (List.mem_of_getLast? hlast)
    have hfiring := tracks_firing ((freeRules registry rules).flatMap (·.effects))
      ((freeRules registry rules).flatMap (·.randomGroups)) t registry
    rw [firesCode_flatMap, ← flatMap_pruned_effects owner hfree ht,
      ← flatMap_pruned_groups owner hfree, ← freeRules_pruned] at hfiring
    subst htrigger
    exact hfiring

theorem any_changesCard_pruned (h : ∀ r ∈ rules, r.trigger = t) (ht : t ≠ .passive) :
    (rules.map (·.pruned owner)).any (·.changesCard) = true ↔ ∃ r ∈ rules,
      ∃ e ∈ kept t r.everyEffect, e.kind = .modifyInternalVariable ∨ e.kind = .destroySelf := by
  have heach : ∀ r ∈ rules, (r.pruned owner).changesCard = true ↔
      ∃ e ∈ kept t r.everyEffect, e.kind = .modifyInternalVariable ∨ e.kind = .destroySelf := by
    intro r hr
    have hr := h r hr
    subst hr
    rw [Rule.changesCard, Rule.everyEffect_pruned owner ht]
    simp
  simp only [List.any_map, List.any_eq_true, Function.comp_apply]
  exact exists_congr fun r => and_congr_right (heach r)

/-- The kept effects that close a block to copies are among all effects that do. -/
theorem changesCard_of_pruned (h : ∀ r ∈ rules, r.trigger = t) (ht : t ≠ .passive)
    (hchanges : (rules.map (·.pruned owner)).any (·.changesCard) = true) :
    rules.any (·.changesCard) = true := by
  obtain ⟨r, hr, e, he, hkind⟩ := (any_changesCard_pruned owner h ht).mp hchanges
  refine List.any_eq_true.mpr ⟨r, hr, List.any_eq_true.mpr ⟨e, (mem_kept.mp he).1, ?_⟩⟩
  simpa using hkind

theorem outgrows_test (h : ∀ r ∈ rules, r.trigger = t) (ht : t ≠ .passive) (guard : String) :
    Outgrows ((∃ r ∈ rules, r.changesCard) → ∃ r ∈ rules, ∃ e ∈ kept t r.everyEffect,
        e.kind = .modifyInternalVariable ∨ e.kind = .destroySelf)
      ["if " ++ (if rules.any (·.changesCard) then guard ++ " and not context.blueprint"
        else guard) ++ " then"]
      ["if " ++ (if (rules.map (·.pruned owner)).any (·.changesCard) then
        guard ++ " and not context.blueprint" else guard) ++ " then"] := by
  have hall : (∃ r ∈ rules, r.changesCard) ↔ rules.any (·.changesCard) = true :=
    List.any_eq_true.symm
  rw [hall, ← any_changesCard_pruned owner h ht]
  have hof := changesCard_of_pruned owner h ht
  have hnot : 0 < ink " and not context.blueprint" := by decide
  cases hkept : (rules.map (·.pruned owner)).any (·.changesCard) with
  | true =>
    rw [hof hkept]
    exact (Outgrows.refl _).congr (by simp)
  | false =>
    cases rules.any (·.changesCard) with
    | false => exact (Outgrows.refl _).congr (by simp)
    | true =>
      refine ⟨?_, fun h => absurd (h rfl) (by simp), fun hink => ?_⟩
      · simp only [inkAll_cons, inkAll_nil, ink_append, if_true, Bool.false_eq_true, if_false]
        omega
      · simp only [inkAll_cons, inkAll_nil, ink_append, if_true, Bool.false_eq_true,
          if_false] at hink
        omega

theorem any_guarded_or_free (t : Trigger) (rules : List Rule) :
    ((rules.any fun r => (r.guard? registry).isSome && hasCode t r.everyEffect) ||
      (freeRules registry rules).any fun r => hasCode t r.everyEffect) =
        rules.any fun r => hasCode t r.everyEffect := by
  rw [freeRules, List.any_filter]
  induction rules with
  | nil => rfl
  | cons r rules ih =>
    rw [List.any_cons, List.any_cons, List.any_cons, ← ih]
    cases r.guard? registry <;> simp [Bool.or_left_comm, Bool.or_assoc]

theorem tracks_block (h : ∀ r ∈ rules, r.trigger = t) (ht : t ≠ .passive) (guard : String) :
    Tracks (fun block block' => Matches (Traceless registry t rules)
        (rules.any fun r => hasCode t r.everyEffect) block.toList block'.toList)
      (Calculate.block? registry guard rules)
      (Calculate.block? registry guard (rules.map (·.pruned owner))) := by
  refine (tracks_branches registry owner h ht).bind fun bs bs' hbs => ?_
  refine (tracks_fallback registry owner h ht).map fun last last' hlast => ?_
  have hinner := matches_chain hbs hlast
  rw [any_guarded_or_free] at hinner
  have hisSome := hinner.isEmpty
  have hisSome' := hinner.isEmpty_right
  revert hinner hisSome hisSome'
  generalize Calculate.chain? bs last = inner
  generalize Calculate.chain? bs' last' = inner'
  intro hinner hisSome hisSome'
  have hcode : (∃ r ∈ rules, hasCode t r.everyEffect = true) ↔
      (rules.any fun r => hasCode t r.everyEffect) = true :=
    List.any_eq_true.symm
  cases hpresent : rules.any fun r => hasCode t r.everyEffect with
  | false =>
    rw [hpresent] at hisSome hisSome' hcode
    obtain rfl : inner = none := by simpa using hisSome
    obtain rfl : inner' = none := by simpa using hisSome'
    obtain ⟨hguarded, hfree⟩ := hinner.outgrows.of_ink rfl
    have htraceless : Traceless registry t rules :=
      ⟨hguarded, hfree, fun hr => nomatch hcode.mp hr⟩
    exact Matches.nil.congr (iff_of_true trivial htraceless)
  | true =>
    rw [hpresent] at hisSome hisSome' hcode
    obtain ⟨code, rfl⟩ : ∃ code, inner = some code := by
      cases inner with
      | none => exact nomatch hisSome
      | some code => exact ⟨code, rfl⟩
    obtain ⟨code', rfl⟩ : ∃ code', inner' = some code' := by
      cases inner' with
      | none => exact nomatch hisSome'
      | some code => exact ⟨code, rfl⟩
    have hlines := (outgrows_test owner h ht guard).append
      ((hinner.outgrows.indent 1).extend ["end"])
    refine .one (hlines.unlines.congr ?_)
    constructor
    · rintro ⟨hcard, hguarded, hfree⟩
      exact ⟨hguarded, hfree, fun _ => hcard⟩
    · rintro ⟨hguarded, hfree, hcard⟩
      exact ⟨hcard (hcode.mpr rfl), hguarded, hfree⟩

end Block

end JokerRules
