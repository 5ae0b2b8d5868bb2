import JokerRules.Proofs.ValueSlots

/-! The amounts that effects read while the rules of an item are compiled. Each of them gets a slot
name of its stem, and its value decides which slots it asks for. -/

namespace JokerRules

open Text

/-- An amount that an effect reads, with the slot name that it was given. -/
structure Reading where
  effect : Effect
  stem : String
  name : String
  value : Value
  resolved : Resolved

def Plan.amount? {α : Type} : Plan α → Option (String × Value)
  | .plain _ => none
  | .measured stem fallback _ => some (stem, fallback)

/-- The reading that a plan makes of an effect's amount, if it has one. -/
def Draft.reading? {α : Type} (d : Draft) (e : Effect) (plan : Plan α) (registry : Registry)
    (captures : Captures) : Option Reading :=
  plan.amount?.map fun amount => {
    effect := e
    stem := amount.1
    name := (d.nextSlotName amount.1).1
    value := (e.params.get? "value").getD amount.2
    resolved := (d.resolve e amount.1 amount.2 registry captures).1 }

namespace Step

def reading? (registry : Registry) (d : Draft) : Step → Option Reading
  | held e => (e.heldPlan? d.owner).bind (d.reading? e · registry {})
  | fired e t captures => (e.plan? t).bind
      (d.reading? e · registry (if e.kind.writesVariable then {} else captures))
  | rolled _ _ => none

def readings (registry : Registry) (points : List (Draft × Step)) : List Reading :=
  points.filterMap fun p => p.2.reading? registry p.1

end Step

section Reading

variable {α : Type} {d : Draft} {e : Effect} {plan : Plan α} {registry : Registry}
  {captures : Captures} {r : Reading}

theorem name_reading (h : d.reading? e plan registry captures = some r) :
    r.name = Names.nth r.stem (d.count r.stem + 1) := by
  obtain ⟨amount, -, rfl⟩ := Option.map_eq_some_iff.mp h
  rfl

theorem resolved_reading (h : d.reading? e plan registry captures = some r) :
    r.resolved = Resolved.ofValue r.value r.effect.id r.name registry captures := by
  obtain ⟨amount, -, rfl⟩ := Option.map_eq_some_iff.mp h
  simp only [Draft.resolve]

theorem newSlots_carryOut (d : Draft) (e : Effect) (plan : Plan α) (registry : Registry)
    (captures : Captures) :
    (d.carryOut e plan registry captures).1.2 =
      (d.reading? e plan registry captures).elim [] (·.resolved.newSlots) := by
  cases plan with
  | plain make => rfl
  | measured stem fallback make => rfl

theorem slotNames_recordAmount (d : Draft) (r : Resolved) :
    (d.recordAmount r).slotNames = d.slotNames := by
  have hrequired : ∀ (d : Draft) (slot : Slot), (d.addRequired slot).slotNames = d.slotNames := by
    intro d slot
    unfold Draft.addRequired
    split <;> rfl
  unfold Draft.recordAmount
  cases r.reference <;> cases r.offsetSlot
  · rfl
  · exact hrequired _ _
  · rfl
  · exact hrequired _ _

theorem count_carryOut (h : d.reading? e plan registry captures = some r) :
    (d.carryOut e plan registry captures).2.count r.stem = d.count r.stem + 1 := by
  obtain ⟨amount, hamount, rfl⟩ := Option.map_eq_some_iff.mp h
  cases plan with
  | plain make => exact nomatch hamount
  | measured stem fallback make =>
    obtain rfl := Option.some.inj hamount
    have hnext := d.count_nextSlotName stem stem
    rw [if_pos rfl] at hnext
    exact (congrArg (·.getD stem 0) (slotNames_recordAmount _ _)).trans hnext

theorem required_addRequired (d : Draft) (slot : Slot) :
    ∃ kept ∈ (d.addRequired slot).requiredSlots, kept = slot ∨ kept.sameAs slot = true := by
  unfold Draft.addRequired
  split
  · next h =>
    obtain ⟨kept, hkept, hsame⟩ := List.any_eq_true.mp h
    exact ⟨kept, hkept, .inr hsame⟩
  · exact ⟨slot, by simp, .inl rfl⟩

theorem required_carryOut (h : d.reading? e plan registry captures = some r) {slot : Slot}
    (hslot : r.resolved.offsetSlot = some slot) :
    ∃ kept ∈ (d.carryOut e plan registry captures).2.requiredSlots,
      kept = slot ∨ kept.sameAs slot = true := by
  obtain ⟨amount, hamount, rfl⟩ := Option.map_eq_some_iff.mp h
  cases plan with
  | plain make => exact nomatch hamount
  | measured stem fallback make =>
    obtain rfl := Option.some.inj hamount
    simp only [Draft.carryOut, Draft.naming, Draft.resolve, Draft.recordAmount] at hslot ⊢
    rw [hslot]
    exact required_addRequired _ slot

end Reading

namespace Step

variable {registry : Registry} {d : Draft} {s : Step} {r : Reading}

theorem reading_cases (h : s.reading? registry d = some r) :
    (∃ e plan, s = held e ∧ e.heldPlan? d.owner = some plan ∧
        d.reading? e plan registry {} = some r) ∨
      ∃ e t captures plan, s = fired e t captures ∧ e.plan? t = some plan ∧
        d.reading? e plan registry (if e.kind.writesVariable then {} else captures) = some r := by
  cases s with
  | held e =>
    obtain ⟨plan, hplan, hr⟩ := Option.bind_eq_some_iff.mp h
    exact .inl ⟨e, plan, rfl, hplan, hr⟩
  | fired e t captures =>
    obtain ⟨plan, hplan, hr⟩ := Option.bind_eq_some_iff.mp h
    exact .inr ⟨e, t, captures, plan, rfl, hplan, hr⟩
  | rolled numerator denominator => exact nomatch h

theorem effect_reading {α : Type} {e : Effect} {plan : Plan α} {captures : Captures}
    (h : d.reading? e plan registry captures = some r) : r.effect = e := by
  obtain ⟨amount, -, rfl⟩ := Option.map_eq_some_iff.mp h
  rfl

theorem name_of_reading (h : s.reading? registry d = some r) :
    r.name = Names.nth r.stem (d.count r.stem + 1) := by
  rcases reading_cases h with ⟨e, plan, -, -, hr⟩ | ⟨e, t, captures, plan, -, -, hr⟩ <;>
    exact name_reading hr

theorem resolved_of_reading (h : s.reading? registry d = some r) :
    ∃ captures, r.resolved = Resolved.ofValue r.value r.effect.id r.name registry captures := by
  rcases reading_cases h with ⟨e, plan, -, -, hr⟩ | ⟨e, t, captures, plan, -, -, hr⟩ <;>
    exact ⟨_, resolved_reading hr⟩

theorem declares_of_heldPlan {e : Effect} {plan : Plan PassiveEffect}
    (h : e.heldPlan? d.owner = some plan) :
    declares registry d (held e) =
      (d.reading? e plan registry {}).elim [] (·.resolved.newSlots) := by
  simp only [declares, h]
  exact newSlots_carryOut d e plan registry {}

theorem declares_of_plan {e : Effect} {t : Trigger} {captures : Captures} {plan : Plan Output}
    (h : e.plan? t = some plan) :
    declares registry d (fired e t captures) =
      (d.reading? e plan registry (if e.kind.writesVariable then {} else captures)).elim []
        (·.resolved.newSlots) ++ e.targetSlots := by
  rw [← (Effect.asks_plan h).slots.carryOut d e registry
    (if e.kind.writesVariable then {} else captures), ← newSlots_carryOut]
  simp only [declares, Effect.compile_run, h]
  exact Effect.newSlots_deliver _ _ _

theorem reading?_held {e : Effect} {plan : Plan PassiveEffect}
    (h : e.heldPlan? d.owner = some plan) :
    reading? registry d (held e) = d.reading? e plan registry {} := by
  simp [reading?, h]

theorem reading?_fired {e : Effect} {t : Trigger} {captures : Captures} {plan : Plan Output}
    (h : e.plan? t = some plan) :
    reading? registry d (fired e t captures) =
      d.reading? e plan registry (if e.kind.writesVariable then {} else captures) := by
  simp [reading?, h]

/-- What a step asks for besides the slots of its amount. -/
def ownSlots (d : Draft) : Step → List Slot
  | held _ => []
  | fired e _ _ => e.targetSlots
  | rolled numerator denominator => [slotOf (oddsOf d numerator denominator)]

theorem exists_plan_of_target {e : Effect} {name : String} (h : e.target? = some name)
    (t : Trigger) : ∃ plan, e.plan? t = some plan := by
  have hkind : e.kind = .modifyInternalVariable := by
    by_contra hkind
    simp [Effect.target?, EffectKind.writesVariable, hkind] at h
  simp only [Effect.plan?, hkind, h]
  exact ⟨_, rfl⟩

/-- The slots that a step asks for are those of its amount, of its variable and of its odds. -/
theorem declares_eq (registry : Registry) (d : Draft) (s : Step) :
    s.declares registry d =
      (s.reading? registry d).elim [] (·.resolved.newSlots) ++ s.ownSlots d := by
  cases s with
  | held e =>
    cases hplan : e.heldPlan? d.owner with
    | none => simp only [declares, reading?, hplan, ownSlots, Option.bind_none, Option.elim,
        List.append_nil]
    | some plan => rw [declares_of_heldPlan hplan, reading?_held hplan, ownSlots, List.append_nil]
  | fired e t captures =>
    cases hplan : e.plan? t with
    | none =>
      have htarget : e.target? = none := by
        by_contra hsome
        obtain ⟨name, hname⟩ := Option.ne_none_iff_exists'.mp hsome
        obtain ⟨plan, hplan'⟩ := exists_plan_of_target hname t
        cases hplan.symm.trans hplan'
      simp only [declares, Effect.compile_run, reading?, hplan, ownSlots,
        Effect.targetSlots, htarget, Option.toList_none, List.map_nil, List.append_nil]
      rfl
    | some plan => rw [declares_of_plan hplan, reading?_fired hplan, ownSlots]
  | rolled numerator denominator => rfl

theorem mem_ownSlots {slot : Slot} (h : slot ∈ s.ownSlots d) :
    (∃ e t captures, s = fired e t captures ∧ e.target? = some slot.name ∧
        slot.initial = .int 0) ∨
      ∃ numerator denominator, s = rolled numerator denominator ∧
        slot = slotOf (oddsOf d numerator denominator) := by
  cases s with
  | held e => exact nomatch h
  | fired e t captures =>
    obtain ⟨name, hname, rfl⟩ := List.mem_map.mp h
    exact .inl ⟨e, t, captures, rfl, Option.mem_toList.mp hname, rfl⟩
  | rolled numerator denominator =>
    exact .inr ⟨numerator, denominator, rfl, List.mem_singleton.mp h⟩

theorem mem_declares {slot : Slot} (h : slot ∈ s.declares registry d) :
    (∃ r, s.reading? registry d = some r ∧ slot ∈ r.resolved.newSlots) ∨
      slot ∈ s.ownSlots d := by
  rw [declares_eq] at h
  refine (List.mem_append.mp h).imp_left fun h => ?_
  cases hr : s.reading? registry d with
  | none =>
    rw [hr] at h
    exact nomatch h
  | some r =>
    rw [hr] at h
    exact ⟨r, rfl, h⟩

theorem target_mem_declares (registry : Registry) (d : Draft) {e : Effect} (t : Trigger)
    (captures : Captures) {name : String} (h : e.target? = some name) :
    { name, initial := .int 0 } ∈ declares registry d (fired e t captures) := by
  rw [declares_eq, ownSlots, Effect.targetSlots, h]
  exact List.mem_append_right _ List.mem_cons_self

theorem stem_of_plan {α : Type} {P : String → Prop} {e : Effect} {plan : Plan α}
    {captures : Captures} (h : plan.StemIs P) (hr : d.reading? e plan registry captures = some r) :
    P r.stem := by
  obtain ⟨amount, hamount, rfl⟩ := Option.map_eq_some_iff.mp hr
  cases plan with
  | plain make => exact nomatch hamount
  | measured stem fallback make => exact Option.some.inj hamount ▸ h

theorem stem_of_reading (h : s.reading? registry d = some r) : r.effect.HasStem r.stem := by
  rcases reading_cases h with ⟨e, plan, -, hplan, hr⟩ | ⟨e, t, captures, plan, -, hplan, hr⟩ <;>
    rw [effect_reading hr]
  · exact .inl (stem_of_plan (Effect.calm_heldPlan hplan) hr)
  · exact stem_of_plan (Effect.asks_plan hplan).stem hr

/-- What a reading notes is still there after the step. -/
theorem grows_of_reading (h : s.reading? registry d = some r) :
    ∃ d', Grows d' (run registry d s) ∧ d'.count r.stem = d.count r.stem + 1 ∧
      ∀ slot, r.resolved.offsetSlot = some slot →
        ∃ kept ∈ d'.requiredSlots, kept = slot ∨ kept.sameAs slot = true := by
  rcases reading_cases h with ⟨e, plan, rfl, hplan, hr⟩ | ⟨e, t, captures, plan, rfl, hplan, hr⟩
  · refine ⟨_, ?_, count_carryOut hr, fun slot hslot => required_carryOut hr hslot⟩
    rw [run_held registry hplan]
    exact ⟨fun _ => Nat.le_refl _, List.Subset.refl _, fun _ h => h⟩
  · refine ⟨_, ?_, count_carryOut hr, fun slot hslot => required_carryOut hr hslot⟩
    rw [run_fired registry d captures hplan]
    have hnote := (Declares.noteTarget (declares_refl (d.carryOut e plan registry
      (if e.kind.writesVariable then {} else captures)).2) e).grows
    exact ⟨hnote.count, hnote.required, hnote.written⟩

theorem written_run (registry : Registry) (d : Draft) {e : Effect} (t : Trigger)
    (captures : Captures) {name : String} (h : e.target? = some name) :
    NameSet.contains (run registry d (fired e t captures)).written name = true := by
  obtain ⟨plan, hplan⟩ := exists_plan_of_target h t
  rw [run_fired registry d captures hplan]
  simp only [Draft.store, Draft.recordSlots, Effect.noteTarget, h, Draft.addWritten, NameSet.contains,
    NameSet.add, Keyed.get?_insert, if_true, Option.isSome_some]

theorem readings_cons (registry : Registry) (p : Draft × Step) (points : List (Draft × Step)) :
    readings registry (p :: points) =
      (p.2.reading? registry p.1).toList ++ readings registry points := by
  cases hr : p.2.reading? registry p.1 with
  | none => exact List.filterMap_cons_none hr
  | some r => exact List.filterMap_cons_some hr

theorem exists_point_of_mem_readings {points : List (Draft × Step)}
    (h : r ∈ readings registry points) :
    ∃ d s, (d, s) ∈ points ∧ s.reading? registry d = some r := by
  obtain ⟨⟨d, s⟩, hmem, hr⟩ := List.mem_filterMap.mp h
  exact ⟨d, s, hmem, hr⟩

theorem exists_point_of_readings_eq {points : List (Draft × Step)} {before after : List Reading}
    (h : readings registry points = before ++ r :: after) :
    ∃ front d s back, points = front ++ (d, s) :: back ∧ readings registry front = before ∧
      s.reading? registry d = some r := by
  obtain ⟨front, rest, rfl, hfront, hrest⟩ := List.filterMap_eq_append_iff.mp h
  obtain ⟨skipped, ⟨d, s⟩, back, rfl, hskipped, hr, -⟩ := List.filterMap_eq_cons_iff.mp hrest
  refine ⟨front ++ skipped, d, s, back, (List.append_assoc _ _ _).symm, ?_, hr⟩
  rw [readings, List.filterMap_append, hfront, List.filterMap_eq_nil_iff.mpr hskipped,
    List.append_nil]

/-- Under a name that no variable and no odds have, the amounts decide which slot is first. -/
theorem find?_declared {points : List (Draft × Step)} {name : String}
    (h : ∀ p ∈ points, ∀ slot ∈ p.2.ownSlots p.1, slot.name ≠ name) :
    (declared registry points).find? (·.name == name) =
      ((readings registry points).flatMap (·.resolved.newSlots)).find? (·.name == name) := by
  induction points with
  | nil => rfl
  | cons p points ih =>
    obtain ⟨hown, hpoints⟩ := List.forall_mem_cons.mp h
    have hnone : (p.2.ownSlots p.1).find? (·.name == name) = none :=
      List.find?_eq_none.mpr fun slot hslot => by simpa using hown slot hslot
    rw [declared_cons, declares_eq, List.append_assoc, List.find?_append, List.find?_append, hnone,
      Option.none_or, ih hpoints]
    rw [readings_cons, List.flatMap_append, List.find?_append]
    cases p.2.reading? registry p.1 with
    | none => rfl
    | some r => rw [Option.elim_some, Option.toList_some, List.flatMap_singleton]

theorem count_lt_of_mem_readings {steps : List Step} {start : Draft}
    (h : r ∈ readings registry (trace registry start steps)) :
    ∃ n, start.count r.stem < n ∧ r.name = Names.nth r.stem n := by
  induction steps generalizing start with
  | nil => exact nomatch h
  | cons s steps ih =>
    rcases List.mem_filterMap.mp h with ⟨⟨d, s'⟩, hmem, hr⟩
    rcases List.mem_cons.mp hmem with heq | hmem
    · obtain ⟨rfl, rfl⟩ := Prod.mk.inj heq
      exact ⟨_, Nat.lt_succ_self _, name_of_reading hr⟩
    · obtain ⟨n, hn, hname⟩ := ih (List.mem_filterMap.mpr ⟨_, hmem, hr⟩)
      have hgrows := (grows_run registry start s).count r.stem
      exact ⟨n, by omega, hname⟩

/-- Two readings of one stem have different names. -/
theorem pairwise_readings (registry : Registry) (start : Draft) (steps : List Step) :
    (readings registry (trace registry start steps)).Pairwise fun r r' =>
      r.stem = r'.stem → r.name ≠ r'.name := by
  induction steps generalizing start with
  | nil => exact .nil
  | cons s steps ih =>
    rw [trace, readings_cons]
    cases hr : s.reading? registry start with
    | none => exact ih _
    | some r =>
      refine List.pairwise_cons.mpr ⟨fun r' hr' hstem hname => ?_, ih _⟩
      obtain ⟨n, hn, hnth⟩ := count_lt_of_mem_readings hr'
      obtain ⟨d', hgrows, hcount, -⟩ := grows_of_reading hr
      have hle := hgrows.count r.stem
      rw [name_of_reading hr, hnth, ← hstem] at hname
      have heq := Names.nth_injective hname
      rw [← hstem] at hn
      omega

end Step

end JokerRules
