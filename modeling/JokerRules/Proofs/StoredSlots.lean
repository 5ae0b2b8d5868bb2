import JokerRules.Proofs.Firsts

/-! The slots of a compiled item. They are the first declarations of their names, the authored ones
before the passive ones and these before the triggered ones. -/

namespace JokerRules.Storage

open Step Text

theorem passive_run (registry : Registry) (effects : List Effect) {d : Draft}
    {passive : List Slot} (h : d.passiveSlots = firsts Slot.name passive) :
    (runAll registry d (effects.map held)).passiveSlots =
        firsts Slot.name (passive ++ declared registry (trace registry d (effects.map held))) ∧
      (runAll registry d (effects.map held)).derivedSlots = d.derivedSlots ∧
      (runAll registry d (effects.map held)).odds = d.odds := by
  induction effects generalizing d passive with
  | nil => exact ⟨by simpa [declared, trace, runAll] using h, rfl, rfl⟩
  | cons e effects ih =>
    have hstep := declares_held registry d e
    have hpassive : (run registry d (held e)).passiveSlots =
        firsts Slot.name (passive ++ declares registry d (held e)) := by
      rw [hstep.passive, h, foldl_addSlot_eq _ (nodup_firsts Slot.name passive)]
      exact firsts_append_congr_right (firsts_firsts Slot.name passive) _
    obtain ⟨hslots, hderived, hodds⟩ := ih hpassive
    refine ⟨?_, hderived.trans hstep.derived, hodds.trans hstep.odds⟩
    rw [List.append_assoc] at hslots
    exact hslots

/-- What the compilation of triggered rules has stored, given what their steps have asked for. -/
structure Stored (d : Draft) (passive triggered : List Slot) (rolls : List Odds) : Prop where
  passiveSlots : d.passiveSlots = firsts Slot.name passive
  derivedSlots : firsts Slot.name (passive ++ d.derivedSlots) = firsts Slot.name (passive ++ triggered)
  odds : d.odds = firsts Odds.name rolls
  /-- The odds have names that have been given out. -/
  named : ∀ o ∈ rolls, ∃ n, n ≤ d.count "odds" ∧ o.name = Names.nth "odds" n
  /-- The groups ask for the slots of their odds. -/
  asked : ∀ o ∈ rolls, slotOf o ∈ triggered
  /-- Groups that share a slot have the same denominator. -/
  shared : ∀ o ∈ rolls, ∃ o' ∈ d.odds, o'.name = o.name ∧ o'.denominator = o.denominator

theorem Stored.fired {d : Draft} {passive triggered : List Slot} {rolls : List Odds}
    (h : Stored d passive triggered rolls) (registry : Registry) (e : Effect) (t : Trigger)
    (captures : Captures) :
    Stored (run registry d (fired e t captures)) passive
      (triggered ++ declares registry d (fired e t captures)) rolls := by
  have hstep := declares_fired registry d e t captures
  refine ⟨hstep.passive.trans h.passiveSlots, ?_, hstep.odds.trans h.odds, fun o ho => ?_,
    fun o ho => List.mem_append_left _ (h.asked o ho), ?_⟩
  · have hfirsts : ∀ slots, firsts Slot.name (passive ++ slots) =
        firsts Slot.name (d.passiveSlots ++ slots) := by
      intro slots
      rw [h.passiveSlots]
      exact firsts_append_congr_right (firsts_firsts Slot.name passive).symm slots
    rw [hstep.derived, hfirsts, firsts_foldl_addSlot, List.append_assoc, ← hfirsts,
      ← List.append_assoc, ← List.append_assoc]
    exact firsts_append_congr_right h.derivedSlots _
  · obtain ⟨n, hn, hname⟩ := h.named o ho
    exact ⟨n, Nat.le_trans hn (hstep.grows.count _), hname⟩
  · rw [hstep.odds]
    exact h.shared

theorem Stored.rolled {d : Draft} {passive triggered : List Slot} {rolls : List Odds}
    (h : Stored d passive triggered rolls) (registry : Registry) (numerator denominator : UInt32) :
    Stored (run registry d (rolled numerator denominator)) passive
      (triggered ++ [slotOf (oddsOf d numerator denominator)])
      (rolls ++ [oddsOf d numerator denominator]) := by
  simp only [run, oddsOf, Draft.shareOdds]
  generalize (if denominator = 0 then 1 else denominator) = proper
  cases hfind : d.odds.find? (·.denominator == proper) with
  | some o =>
    have hmem : o ∈ d.odds := List.mem_of_find?_eq_some hfind
    have hproper : o.denominator = proper := by simpa using List.find?_some hfind
    have hroll : o ∈ rolls := mem_of_mem_firsts Odds.name (h.odds ▸ hmem)
    refine ⟨h.passiveSlots, h.derivedSlots.trans ?_, h.odds.trans ?_, ?_, ?_, ?_⟩
    · have hasked : ∀ s ∈ [slotOf ⟨o.name, numerator, proper⟩],
          s.name ∈ (passive ++ triggered).map (·.name) := by
        intro s hs
        rw [List.mem_singleton.mp hs]
        exact List.mem_map.mpr ⟨_, List.mem_append_right passive (h.asked o hroll), rfl⟩
      simpa using (firsts_skip hasked []).symm
    · have hrolled : ∀ o' ∈ [(⟨o.name, numerator, proper⟩ : Odds)], o'.name ∈ rolls.map (·.name) := by
        intro o' ho'
        rw [List.mem_singleton.mp ho']
        exact List.mem_map.mpr ⟨o, hroll, rfl⟩
      simpa using (firsts_skip hrolled []).symm
    · exact List.forall_mem_append.mpr ⟨h.named, by simpa using h.named o hroll⟩
    · refine List.forall_mem_append.mpr ⟨fun o' ho' => List.mem_append_left _ (h.asked o' ho'), ?_⟩
      simp
    · exact List.forall_mem_append.mpr ⟨h.shared, by simpa using ⟨o, hmem, rfl, hproper⟩⟩
  | none =>
    have hcount := d.count_nextSlotName "odds" "odds"
    rw [if_pos rfl] at hcount
    have hnew : (d.nextSlotName "odds").1 ∉ rolls.map (·.name) := by
      intro hmem
      obtain ⟨o, ho, hname⟩ := List.mem_map.mp hmem
      obtain ⟨n, hn, hnth⟩ := h.named o ho
      have heq : Names.nth "odds" n = Names.nth "odds" (d.count "odds" + 1) := hnth.symm.trans hname
      have := Names.nth_injective heq
      omega
    refine ⟨h.passiveSlots, ?_, ?_, ?_, ?_, ?_⟩
    · rw [← List.append_assoc, ← List.append_assoc]
      exact firsts_append_congr_right h.derivedSlots _
    · rw [firsts_append, ← h.odds]
      refine congrArg (d.odds ++ ·) (List.filter_eq_self.mpr fun o ho => ?_).symm
      rw [List.mem_singleton.mp ho]
      exact decide_eq_true hnew
    · refine List.forall_mem_append.mpr ⟨fun o ho => ?_, ?_⟩
      · obtain ⟨n, hn, hname⟩ := h.named o ho
        exact ⟨n, Nat.le_trans hn ((grows_nextSlotName d "odds").count "odds"), hname⟩
      · exact List.forall_mem_singleton.mpr ⟨_, Nat.le_of_eq hcount.symm, rfl⟩
    · refine List.forall_mem_append.mpr ⟨fun o' ho' => List.mem_append_left _ (h.asked o' ho'), ?_⟩
      simp [slotOf]
    · refine List.forall_mem_append.mpr ⟨fun o ho => ?_, by simp⟩
      obtain ⟨o', ho', hshared⟩ := h.shared o ho
      exact ⟨o', List.mem_append_left _ ho', hshared⟩

theorem stored_run (registry : Registry) {steps : List Step} (hsteps : ∀ e, held e ∉ steps)
    {d : Draft} {passive triggered : List Slot} {odds : List Odds}
    (h : Stored d passive triggered odds) :
    Stored (runAll registry d steps) passive
      (triggered ++ declared registry (trace registry d steps))
      (odds ++ rolls (trace registry d steps)) := by
  induction steps generalizing d triggered odds with
  | nil => simpa [declared, rolls, trace, runAll] using h
  | cons s steps ih =>
    have hrest : ∀ e, held e ∉ steps := fun e he => hsteps e (List.mem_cons_of_mem _ he)
    cases s with
    | held e => exact absurd List.mem_cons_self (hsteps e)
    | fired e t captures =>
      have hrun := ih hrest (h.fired registry e t captures)
      rw [List.append_assoc] at hrun
      exact hrun
    | rolled numerator denominator =>
      have hrun := ih hrest (h.rolled registry numerator denominator)
      rw [List.append_assoc, List.append_assoc] at hrun
      exact hrun

theorem held_not_mem_ofFiring (effects : List Effect) (groups : List RandomGroup) (t : Trigger)
    (e : Effect) : held e ∉ ofFiring effects groups t := by
  simp [ofFiring, ofBundle, ofGroup]

theorem held_not_mem_ofTriggered (registry : Registry) (rules : List Rule) (e : Effect) :
    held e ∉ ofTriggered registry rules := by
  intro he
  obtain ⟨block, -, he⟩ := List.mem_flatMap.mp he
  rcases List.mem_append.mp he with he | he
  · obtain ⟨r, -, he⟩ := List.mem_flatMap.mp he
    unfold ofBranch at he
    split at he
    · exact held_not_mem_ofFiring _ _ _ e he
    · exact nomatch he
  · unfold ofFallback at he
    split at he
    · exact nomatch he
    · exact held_not_mem_ofFiring _ _ _ e he

section Definition

variable (item : Item) (settings : ModSettings)

/-- What the passive rules ask for, in the order of compilation. -/
def passiveDeclarations : List Slot :=
  declared settings.registry (Definition.passiveTrace item settings)

/-- What the other rules ask for, in the order of compilation. -/
def triggeredDeclarations : List Slot :=
  declared settings.registry (Definition.triggeredTrace item settings)

theorem stored_ruleDraft :
    Stored (Definition.ruleDraft item settings) (passiveDeclarations item settings)
      (triggeredDeclarations item settings) (rolls (Definition.triggeredTrace item settings)) := by
  obtain ⟨hpassive, hderived, hodds⟩ := passive_run settings.registry
    ((item.rules.filter (·.trigger == .passive)).flatMap (·.effects))
    (show (Definition.blank item settings).passiveSlots = firsts Slot.name [] from rfl)
  have hstart : Stored (Definition.passiveDraft item settings)
      (passiveDeclarations item settings) [] [] := by
    refine ⟨hpassive, ?_, hodds, by simp, by simp, by simp⟩
    exact congrArg (fun slots => firsts Slot.name (_ ++ slots)) hderived
  rw [Definition.ruleDraft_eq_runAll]
  exact stored_run settings.registry
    (held_not_mem_ofTriggered settings.registry item.rules) hstart

/-- The passive declarations whose names no variable claims. -/
def unclaimed : List Slot :=
  (passiveDeclarations item settings).filter (·.name ∉ (userSlots item).map (·.name))

theorem firsts_unclaimed :
    firsts Slot.name (unclaimed item settings) =
      (firsts Slot.name (passiveDeclarations item settings)).filter
        (·.name ∉ (userSlots item).map (·.name)) :=
  firsts_filter (fun name => decide (name ∉ (userSlots item).map (·.name))) _

theorem firsts_unclaimed_append :
    firsts Slot.name (unclaimed item settings ++ userSlots item) =
      firsts Slot.name (unclaimed item settings) ++ firsts Slot.name (userSlots item) := by
  rw [firsts_append]
  refine congrArg _ (List.filter_eq_self.mpr fun slot hslot => ?_)
  have huser := mem_of_mem_firsts Slot.name hslot
  rw [decide_eq_true_iff]
  intro hmem
  obtain ⟨other, hother, hname⟩ := List.mem_map.mp hmem
  exact of_decide_eq_true (List.mem_filter.mp hother).2 (hname ▸ List.mem_map_of_mem huser)

theorem mem_names_unclaimed {name : String} :
    name ∈ (unclaimed item settings ++ userSlots item).map (·.name) ↔
      name ∈ (passiveDeclarations item settings ++ userSlots item).map (·.name) := by
  simp only [unclaimed, List.map_append, List.mem_append, List.mem_map, List.mem_filter]
  grind

theorem itemSlots_eq :
    Definition.itemSlots item settings = firsts Slot.name
      (unclaimed item settings ++ userSlots item ++ triggeredDeclarations item settings) := by
  have hstored := stored_ruleDraft item settings
  have hpassive : (Definition.ruleDraft item settings).passiveSlots.filter
      (fun slot => !(authoredSlots item).any (·.name == slot.name)) =
      firsts Slot.name (unclaimed item settings) := by
    rw [hstored.passiveSlots, firsts_unclaimed]
    refine List.filter_congr fun slot _ => ?_
    rw [decide_not, authoredSlots_eq, Bool.eq_iff_iff, Bool.not_eq_true', Bool.not_eq_true',
      ← Bool.not_eq_true, any_name_iff, mem_map_firsts, decide_eq_false_iff_not]
  have hcovers : ∀ slot ∈ passiveDeclarations item settings,
      slot.name ∈ (unclaimed item settings ++ userSlots item).map (·.name) := fun slot hslot =>
    (mem_names_unclaimed item settings).mpr
      (List.mem_map_of_mem (List.mem_append_left _ hslot))
  calc Definition.itemSlots item settings
      = (Definition.ruleDraft item settings).derivedSlots.foldl (Draft.addSlot [])
          (firsts Slot.name (unclaimed item settings ++ userSlots item)) := by
        rw [firsts_unclaimed_append, ← hpassive, ← authoredSlots_eq]
        rfl
    _ = firsts Slot.name (unclaimed item settings ++ userSlots item ++
          (Definition.ruleDraft item settings).derivedSlots) := by
        rw [foldl_addSlot_eq _ (nodup_firsts _ _)]
        exact firsts_append_congr_right (firsts_firsts _ _) _
    _ = firsts Slot.name (unclaimed item settings ++ userSlots item ++
          triggeredDeclarations item settings) := by
        rw [← firsts_skip hcovers, ← firsts_skip hcovers (triggeredDeclarations item settings)]
        exact firsts_append_congr_left hstored.derivedSlots _

/-- An authored slot comes before a passive one of its name, and a passive one before a triggered
one. -/
theorem find?_itemSlots (name : String) :
    (Definition.itemSlots item settings).find? (·.name == name) =
      (userSlots item ++ passiveDeclarations item settings ++
        triggeredDeclarations item settings).find? (·.name == name) := by
  rw [itemSlots_eq, find?_firsts]
  simp only [List.find?_append]
  congr 1
  by_cases huser : name ∈ (userSlots item).map (·.name)
  · have hnone : (unclaimed item settings).find? (·.name == name) = none := by
      refine List.find?_eq_none.mpr fun slot hslot hname => ?_
      have hname : slot.name = name := by simpa using hname
      exact of_decide_eq_true (List.mem_filter.mp hslot).2 (hname ▸ huser)
    obtain ⟨slot, hslot⟩ := Option.isSome_iff_exists.mp (List.find?_isSome.mpr
      (by simpa using huser : ∃ slot ∈ userSlots item, (slot.name == name) = true))
    rw [hnone, hslot]
    rfl
  · have hnone : (userSlots item).find? (·.name == name) = none := by
      simpa [List.find?_eq_none] using huser
    rw [hnone, Option.or_none, Option.none_or, unclaimed, List.find?_filter]
    congr 1
    grind

theorem itemSlots_segments :
    Definition.itemSlots item settings =
      (firsts Slot.name (passiveDeclarations item settings)).filter
          (·.name ∉ (userSlots item).map (·.name)) ++
        firsts Slot.name (userSlots item) ++
        (firsts Slot.name (triggeredDeclarations item settings)).filter
          (·.name ∉ (passiveDeclarations item settings ++ userSlots item).map (·.name)) := by
  rw [itemSlots_eq, firsts_append, firsts_unclaimed_append, firsts_unclaimed]
  simp only [mem_names_unclaimed]

end Definition

end JokerRules.Storage
