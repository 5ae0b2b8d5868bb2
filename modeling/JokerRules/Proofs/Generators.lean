import JokerRules.Proofs.Plans

/-! Generators and plans. A generator that gives up has touched nothing by then, whatever it would
have done next. One that does not give up carries out the plan of its effect. -/

namespace JokerRules

/-- The draft with the variable noted that the effect writes. -/
def Effect.noteTarget (e : Effect) (d : Draft) : Draft :=
  match e.target? with
  | some name => d.addWritten name
  | none => d

/-- What comes of a plan on the workbench. Without a plan nothing comes of it, and nothing is
touched. -/
def Plan.outcome {α : Type} (plan : Option (Plan α)) (e : Effect) (scene : Scene)
    (bench : Workbench) : Option α × Workbench :=
  match plan with
  | none => (none, bench)
  | some plan =>
    let captures := if e.kind.writesVariable then {} else scene.captures
    let ((a, slots), d) := bench.draft.carryOut e plan scene.registry captures
    (some a, { draft := e.noteTarget d, pending := bench.pending ++ slots })

namespace Generator

variable {α β : Type} {scene : Scene} {bench : Workbench}

@[simp]
theorem run_pure (a : α) : (pure a : Generator α).run scene bench = (some a, bench) := rfl

@[simp]
theorem run_failure : (failure : Generator α).run scene bench = (none, bench) := rfl

@[simp]
theorem run_trigger : trigger.run scene bench = (some scene.trigger, bench) := rfl

@[simp]
theorem run_owner : owner.run scene bench = (some bench.draft.owner, bench) := rfl

@[simp]
theorem run_bind (g : Generator α) (next : α → Generator β) :
    (g >>= next).run scene bench =
      (g.run scene bench).1.elim (none, (g.run scene bench).2) fun a =>
        (next a).run scene (g.run scene bench).2 := by
  simp only [run, bind, ReaderT.bind, OptionT.bind, OptionT.mk, StateT.bind]
  rcases g scene bench with ⟨_ | a, bench'⟩ <;> rfl

end Generator

namespace Effect

open Generator

variable {α : Type} {e : Effect} {scene : Scene} {bench : Workbench}

theorem noteTarget_of_none (h : e.target? = none) (d : Draft) : e.noteTarget d = d := by
  simp only [noteTarget, h]

theorem target_of_kind (h : e.kind ≠ .modifyInternalVariable) : e.target? = none := by
  simp [target?, EffectKind.writesVariable, h]

theorem run_plain (h : e.target? = none) (make : Naming α) :
    (liftM make : Generator α).run scene bench =
      Plan.outcome (some (.plain make)) e scene bench := by
  simp only [Plan.outcome, Draft.carryOut, noteTarget_of_none h, List.append_nil]
  rfl

theorem run_fixed (h : e.target? = none) (a : α) :
    (pure a : Generator α).run scene bench = Plan.outcome (some (.fixed a)) e scene bench :=
  run_plain h (pure a)

theorem run_measured (h : e.target? = none) (stem : String) (fallback : Value)
    (make : String → Naming α) :
    (e.amount stem fallback >>= fun v => liftM (make v) : Generator α).run scene bench =
      Plan.outcome (some (.measured stem fallback make)) e scene bench := by
  simp only [Plan.outcome, Draft.carryOut, noteTarget_of_none h]
  rfl

theorem run_reading (h : e.target? = none) (stem : String) (fallback : Value) (f : String → α) :
    (do return f (← e.amount stem fallback) : Generator α).run scene bench =
      Plan.outcome (some (.reading stem fallback f)) e scene bench :=
  run_measured h stem fallback fun v => pure (f v)

theorem run_modifyVariable (h : e.kind = .modifyInternalVariable) :
    e.modifyVariable.run scene bench =
      Plan.outcome (e.target?.map fun name =>
        .reading (name ++ "_change") (.int 1) (modifiedOutput (.ofParams e.params .add) name))
        e scene bench := by
  have htarget : e.target? =
      ((e.params.text? "variable_name").map Text.identifier).filter (· ≠ "") := by
    simp [target?, EffectKind.writesVariable, h]
  unfold modifyVariable
  cases hraw : e.params.text? "variable_name" with
  | none => simp [htarget, hraw, Plan.outcome]
  | some raw =>
    by_cases hempty : Text.identifier raw = ""
    · have hname : e.target? = none := by
        simp [htarget, hraw, Option.filter, hempty]
      simp only [hempty, if_true, hname, Option.map_none, Plan.outcome]
      rfl
    · have hname : e.target? = some (Text.identifier raw) := by
        simp [htarget, hraw, Option.filter, hempty]
      simp only [hempty, if_false, hname, Option.map_some, Plan.outcome, Draft.carryOut, noteTarget]
      rfl

theorem run_levelUpHand (h : e.target? = none) :
    e.levelUpHand.run scene bench =
      Plan.outcome
        (if e.params.textOr "hand_type" "current" = "current" && !scene.trigger.playsHand then none
          else some (.measured "levels" (.int 1) e.levelUp)) e scene bench := by
  simp only [levelUpHand, run_bind, run_trigger, Option.elim_some]
  split
  · rfl
  · exact run_measured h "levels" (.int 1) e.levelUp

theorem run_convertCards (h : e.target? = none) (trait : BaseTrait) :
    (e.convertCards trait).run scene bench =
      Plan.outcome (e.conversion? scene.trigger trait) e scene bench := by
  simp only [convertCards, conversion?, run_bind, run_trigger, Option.elim_some]
  split
  · exact run_plain h _
  · cases trait.name? (e.params.textOr trait.key "random") with
    | none => rfl
    | some name => exact run_fixed h _

theorem run_changeQuantity (h : e.target? = none) (q : Quantity) :
    (e.changeQuantity q).run scene bench =
      Plan.outcome (q.fired.map fun change =>
        .reading q.stem (.int q.fallback) (change.output (q.operation e.params))) e scene bench := by
  unfold changeQuantity
  cases q.fired with
  | none => rfl
  | some change => exact run_reading h q.stem (.int q.fallback) (change.output (q.operation e.params))

theorem run_permaBonus (h : e.target? = none) :
    e.permaBonus.run scene bench =
      Plan.outcome (if scene.trigger.firesPerCard && Text.startsWith "perma_" e.bonusField then
        some (.reading e.bonusField (.int 1) (bonusOutput e.bonusField)) else none) e scene bench := by
  simp only [permaBonus, run_bind, run_trigger, Option.elim_some]
  cases scene.trigger.firesPerCard with
  | false => rfl
  | true =>
    simp only [if_true, Bool.true_and]
    split
    · exact run_reading h e.bonusField (.int 1) (bonusOutput e.bonusField)
    · rfl

theorem run_editTriggeredCard (h : e.target? = none) :
    e.editTriggeredCard.run scene bench =
      Plan.outcome (if scene.trigger.firesPerCard && !e.editCode.isEmpty then
        some (.fixed (editedOutput e.editCode)) else none) e scene bench := by
  simp only [editTriggeredCard, run_bind, run_trigger, Option.elim_some]
  cases scene.trigger.firesPerCard with
  | false => rfl
  | true =>
    simp only [if_true, Bool.true_and]
    cases e.editCode.isEmpty with
    | true => rfl
    | false => exact run_fixed h _

theorem run_destroyTriggeredCard (h : e.target? = none) :
    destroyTriggeredCard.run scene bench =
      Plan.outcome
        (if scene.trigger = .cardDiscarded then
          some (.fixed (destroyedOutput (.fields ["remove = true"])))
        else if scene.trigger.firesPerCard then
          some (.fixed (destroyedOutput (.closure "SMODS.destroy_cards(context.other_card)")))
        else none) e scene bench := by
  simp only [destroyTriggeredCard, run_bind, run_trigger, Option.elim_some]
  split
  · exact run_fixed h _
  · split
    · exact run_fixed h _
    · rfl

/-- A generator that needs a trigger of some sort gives up under all others. -/
theorem run_guarded {p : Prop} [Decidable p] {g : Generator α} {plan : Plan α}
    (hg : g.run scene bench = Plan.outcome (some plan) e scene bench) :
    (if p then g else failure).run scene bench =
      Plan.outcome (if p then some plan else none) e scene bench := by
  split
  · exact hg
  · rfl

/-- A generator follows the plan of its effect. -/
theorem run_generate (e : Effect) (scene : Scene) (bench : Workbench) :
    e.generate.run scene bench = Plan.outcome (e.plan? scene.trigger) e scene bench := by
  by_cases hwrites : e.kind = .modifyInternalVariable
  · simp only [generate, plan?, hwrites]
    exact run_modifyVariable hwrites
  have h : e.target? = none := target_of_kind hwrites
  cases hkind : e.kind <;> simp only [generate, plan?, hkind, Quantity.ofKind?, ScoreField.ofKind?,
    BaseTrait.ofKind?, Option.bind_some, Option.map_some]
  case modifyInternalVariable => exact absurd hkind hwrites
  case levelUpHand => exact run_levelUpHand h
  case convertCardsSuit | convertCardsRank => exact run_convertCards h _
  case permaBonus => exact run_permaBonus h
  case editTriggeredCard => exact run_editTriggeredCard h
  case destroyTriggeredCard => exact run_destroyTriggeredCard h
  case editHands | editDiscards | editHandSize | editJokerSlots | editConsumableSlots
      | editShopSlots | editInterestCap | allowDebt =>
    exact run_changeQuantity h _
  case retrigger => exact run_guarded (run_reading h _ _ _)
  case savedFromDeath | copyTriggeredCard => exact run_guarded (run_fixed h _)
  case showMessage | balance | swapChipsMult | destroySelf | addCardToDeck | disableBossBlind =>
    exact run_fixed h _
  case createJoker | destroyJoker | copyJoker | createConsumable | destroyConsumable
      | copyConsumable | createTag =>
    exact run_plain h _
  case freeRerolls | shortcut | splashEffect | discountItems | reduceFlushStraight | combineSuits
      | combineRanks | showman | unknown =>
    rfl
  all_goals exact run_reading h _ _ _

theorem compile_run (e : Effect) (t : Trigger) (registry : Registry) (captures : Captures)
    (d : Draft) :
    (e.compile t registry captures).run d =
      match e.plan? t with
      | none => (none, d)
      | some plan =>
        let result := d.carryOut e plan registry (if e.kind.writesVariable then {} else captures)
        (some (e.deliver result.1.2 result.1.1), e.noteTarget result.2) := by
  have hrun : (if e.kind.onlyPassive then failure else e.generate : Generator Output).run
      ⟨t, registry, captures⟩ { draft := d } =
        Plan.outcome (e.plan? t) e ⟨t, registry, captures⟩ { draft := d } := by
    cases hpassive : e.kind.onlyPassive with
    | false => exact run_generate e ⟨t, registry, captures⟩ { draft := d }
    | true =>
      have hplan : e.plan? t = none := by
        cases hkind : e.kind <;> simp only [hkind, EffectKind.onlyPassive, Bool.false_eq_true]
          at hpassive <;> simp only [plan?, hkind]
      rw [hplan]
      rfl
  simp only [compile, StateT.run, hrun]
  cases e.plan? t <;> rfl

theorem newSlots_deliver (e : Effect) (slots : List Slot) (o : Output) :
    (e.deliver slots o).newSlots = slots ++ o.newSlots := by
  unfold deliver
  cases e.ownMessage? <;> rfl

theorem run_holdQuantity (h : e.target? = none) (q : Quantity) :
    (e.holdQuantity q).run scene bench =
      Plan.outcome (some (.reading q.stem (.int q.fallback) (q.moved e.params))) e scene bench :=
  run_reading h q.stem (.int q.fallback) (q.moved e.params)

theorem run_generateHeld (e : Effect) (scene : Scene) (bench : Workbench) :
    e.generateHeld.run scene bench =
      Plan.outcome (e.heldPlan? bench.draft.owner) e scene bench := by
  by_cases hwrites : e.kind = .modifyInternalVariable
  · simp only [generateHeld, heldPlan?, hwrites, run_bind, run_owner, Option.elim_some]
    rfl
  have h : e.target? = none := target_of_kind hwrites
  cases hkind : e.kind <;> simp only [generateHeld, heldPlan?, hkind, Quantity.ofKind?,
    Option.map_some, run_bind, run_owner, Option.elim_some]
  case combineSuits =>
    cases e.combineSuits? bench.draft.owner with
    | none => rfl
    | some request => exact run_fixed h _
  case combineRanks =>
    cases e.combineRanks? bench.draft.owner with
    | none => rfl
    | some request => exact run_fixed h _
  case reduceFlushStraight | shortcut | splashEffect | showman => exact run_fixed h _
  case editHandSize | editHands | editDiscards | editJokerSlots | editConsumableSlots
      | editShopSlots | editInterestCap | allowDebt | freeRerolls =>
    exact run_holdQuantity h _
  case discountItems =>
    exact run_reading h "discount" (.int 1) (e.discounting bench.draft.owner)
  all_goals rfl

theorem compileHeld_run (e : Effect) (registry : Registry) (d : Draft) :
    (e.compileHeld registry).run d =
      match e.heldPlan? d.owner with
      | none => (none, d)
      | some plan =>
        let result := d.carryOut e plan registry {}
        (some result.1.1, result.2.storePassive e.id result.1.2) := by
  have htarget : ∀ plan, e.heldPlan? d.owner = some plan → e.target? = none := by
    intro plan hplan
    refine target_of_kind fun hkind => ?_
    simp only [heldPlan?, hkind] at hplan
    cases hplan
  simp only [compileHeld, StateT.run, run_generateHeld]
  cases hplan : e.heldPlan? d.owner with
  | none => rfl
  | some plan =>
    simp only [Plan.outcome, noteTarget_of_none (htarget plan hplan), ite_self]
    rfl

theorem exists_heldPlan {registry : Registry} {d : Draft} {held : PassiveEffect}
    (h : ((e.compileHeld registry).run d).1 = some held) :
    ∃ plan, e.heldPlan? d.owner = some plan ∧ (d.carryOut e plan registry {}).1.1 = held := by
  rw [compileHeld_run] at h
  cases hplan : e.heldPlan? d.owner with
  | none =>
    rw [hplan] at h
    cases h
  | some plan =>
    rw [hplan] at h
    exact ⟨plan, rfl, Option.some.inj h⟩

end Effect

end JokerRules
