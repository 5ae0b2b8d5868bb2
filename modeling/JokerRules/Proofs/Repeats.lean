import JokerRules.Proofs.Outlines

/-! Which outputs repeat a card. They are those of the retriggers, so a bundle has as many of them
as it has retriggers. -/

namespace JokerRules

open Text Step Calculate

namespace Output

/-- The key of the only entry begins with another letter. -/
theorem repeats_of_entry (key amount : String) {o : Output} {c : Char} {cs : List Char}
    (h : o.body = .fields [key ++ " = " ++ amount]) (hkey : key.toList = c :: cs) (hc : c ≠ 'r') :
    o.repeats = false := by
  have hfirst : "repetitions = ".toList = 'r' :: "epetitions = ".toList := by decide
  simp [repeats_of_fields h, startsWith, hfirst, hkey, List.isPrefixOf, hc.symm]

end Output

namespace Effect

theorem repeats_levelUp (e : Effect) (v : String) :
    Gives (e.levelUp v) fun o => o.repeats = false := by
  intro names
  simp only [levelUp]
  split
  · exact Output.repeats_of_entry "level_up" v rfl rfl (by decide)
  · split <;> rfl

theorem repeats_createConsumable (e : Effect) :
    Gives e.createConsumable fun o => o.repeats = false := by
  intro names
  simp only [createConsumable]
  cases familyOf? (e.params.textOr "consumable_type" "random") <;> rfl

theorem repeats_createTag (e : Effect) : Gives e.createTag fun o => o.repeats = false := by
  intro names
  simp only [createTag]
  split <;> rfl

/-- Only retriggers repeat a card. -/
theorem repeats_plan {e : Effect} {t : Trigger} {plan : Plan Output} (h : e.plan? t = some plan) :
    plan.Makes fun o => o.repeats = (e.kind == .retrigger) := by
  have hother : e.kind ≠ .retrigger → (plan.Makes fun o => o.repeats = false) →
      plan.Makes fun o => o.repeats = (e.kind == .retrigger) := fun hkind hmakes =>
    (beq_eq_false_iff_ne.mpr hkind).symm ▸ hmakes
  cases planned_of_plan h with
  | retrigger kind =>
    intro v names
    rw [kind]
    exact (Output.repeats_of_fields rfl).trans (by simp [startsWith])
  | score kind =>
    refine hother (fun hkind => by rw [hkind] at kind; cases kind) fun v names => ?_
    cases hkind : e.kind <;> rw [hkind] at kind <;> cases kind <;>
      exact Output.repeats_of_entry _ v rfl rfl (by decide)
  | changeQuantity kind =>
    exact hother (fun hkind => by rw [hkind] at kind; cases kind) fun _ _ => rfl
  | drawConversion kind | convertCards kind =>
    exact hother (fun hkind => by rw [hkind] at kind; cases kind) fun _ => rfl
  | levelUp kind => exact hother (by simp [kind]) e.repeats_levelUp
  | createConsumable kind => exact hother (by simp [kind]) e.repeats_createConsumable
  | createTag kind => exact hother (by simp [kind]) e.repeats_createTag
  | balance kind | swapChipsMult kind | savedFromDeath kind | removeCard kind =>
    exact hother (by simp [kind]) fun _ => (Output.repeats_of_fields rfl).trans (by decide)
  | setDollars kind | setSellValue kind | modifyVariable kind | drawCards kind | permaBonus kind
  | editBlindSize kind | setAnte kind | modifyProbability kind =>
    exact hother (by simp [kind]) fun _ _ => rfl
  | showMessage kind | destroyCard kind | createJoker kind | destroyJoker kind | copyJoker kind
  | destroySelf kind | destroyConsumable kind | copyConsumable kind | addCardToDeck kind
  | copyTriggeredCard kind | editTriggeredCard kind | disableBossBlind kind =>
    exact hother (by simp [kind]) fun _ => rfl

theorem repeats_deliver (e : Effect) (slots : List Slot) (o : Output) :
    (e.deliver slots o).repeats = o.repeats := by
  unfold deliver
  cases e.ownMessage? with
  | none => rfl
  | some text =>
    obtain ⟨body, message, colour, hoisted, newSlots⟩ := o
    cases body with
    | fields entries =>
      rw [Output.repeats_of_fields rfl, Output.repeats_of_fields rfl, List.any_append]
      have hown : ["remove_default_message = true"].any (startsWith "repetitions = ") = false := by
        decide
      rw [hown, Bool.or_false]
    | closure code => rfl
    | messageOnly => rfl

theorem repeats_compile {e : Effect} {t : Trigger} {registry : Registry} {captures : Captures}
    {d : Draft} {o : Output} (h : ((e.compile t registry captures).run d).1 = some o) :
    o.repeats = (e.kind == .retrigger) := by
  cases hplan : e.plan? t with
  | none =>
    simp only [compile_run, hplan] at h
    cases h
  | some plan =>
    rw [compile_eq hplan] at h
    rw [← Option.some.inj h, repeats_deliver]
    exact (repeats_plan hplan).carryOut d e registry _

end Effect

/-- The outputs that repeat a card are those of the kept retriggers. -/
theorem countP_repeats (t : Trigger) (registry : Registry) (captures : Captures)
    (effects : List Effect) (d : Draft) :
    ((Bundle.outputsOf t registry captures effects).run d).1.countP (·.repeats) =
      (kept t effects).countP (·.kind == .retrigger) := by
  induction effects generalizing d with
  | nil => rfl
  | cons e effects ih =>
    have hnone := isNone_compile e t registry captures d
    simp only [Bundle.outputsOf]
    cases hcompile : (e.compile t registry captures).run d with
    | mk result d' =>
      rw [hcompile] at hnone
      cases result with
      | none =>
        have hkept : kept t (e :: effects) = kept t effects := by
          have hplan : (e.plan? t).isSome = false := by simpa using hnone.symm
          simp [kept, hplan]
        rw [hkept, StateT.run_bind, hcompile]
        exact ih d'
      | some o =>
        have ho : o.repeats = (e.kind == .retrigger) := Effect.repeats_compile (by rw [hcompile])
        have hkept : kept t (e :: effects) = e :: kept t effects := by
          have hplan : (e.plan? t).isSome = true := by
            simpa [Option.isNone_eq_false_iff] using hnone.symm
          simp [kept, hplan]
        have hrest := ih (d'.store e.id o.newSlots)
        rw [hkept, List.countP_cons, ← ho, ← hrest, StateT.run_bind, hcompile]
        exact List.countP_cons

/-- A retrigger is kept where the trigger has a repetition pass. -/
theorem countP_kept (t : Trigger) (effects : List Effect) :
    (kept t effects).countP (·.kind == .retrigger) =
      if t.hasRepetition then effects.countP (·.kind == .retrigger) else 0 := by
  have hplan : ∀ e : Effect, ((e.kind == .retrigger) && (e.plan? t).isSome) =
      (t.hasRepetition && (e.kind == .retrigger)) := by
    intro e
    by_cases hkind : e.kind = .retrigger
    · cases ht : t.hasRepetition <;> simp [Effect.plan?, hkind, ht]
    · rw [beq_eq_false_iff_ne.mpr hkind, Bool.false_and, Bool.and_false]
  rw [kept, List.countP_filter, List.countP_congr fun e _ => by rw [hplan e]]
  cases t.hasRepetition <;> simp

theorem any_repeats {t : Trigger} (ht : t.hasRepetition) (registry : Registry) (captures : Captures)
    (effects : List Effect) (d : Draft) :
    ((Bundle.outputsOf t registry captures effects).run d).1.any (·.repeats) =
      effects.any (·.kind == .retrigger) := by
  have hcount := countP_repeats t registry captures effects d
  rw [countP_kept, if_pos ht] at hcount
  rw [Bool.eq_iff_iff, List.any_eq_true, List.any_eq_true, ← List.countP_pos_iff,
    ← List.countP_pos_iff, hcount]

end JokerRules
