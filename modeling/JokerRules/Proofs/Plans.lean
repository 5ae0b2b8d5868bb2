import JokerRules.Effect.Compile
import JokerRules.Passive

/-! Plans. An effect reads one amount at most, and after that it can only take names for local
variables. Its plan says which amount and what is made of it. A generator either gives up before it
has touched the draft, or it carries out the plan of its effect. -/

namespace JokerRules

open Text

inductive Plan (α : Type)
  | plain (make : Naming α)
  /-- `stem` names the slot of the amount, and `fallback` is the amount if none is authored. -/
  | measured (stem : String) (fallback : Value) (make : String → Naming α)

namespace Plan

variable {α : Type}

abbrev fixed (a : α) : Plan α :=
  .plain (pure a)

abbrev reading (stem : String) (fallback : Value) (f : String → α) : Plan α :=
  .measured stem fallback fun v => pure (f v)

end Plan

/-- Carries out a plan: its result, and the slots of the amount that it reads. -/
def Draft.carryOut {α : Type} (d : Draft) (e : Effect) (plan : Plan α) (registry : Registry)
    (captures : Captures) : (α × List Slot) × Draft :=
  match plan with
  | .plain make =>
    let (a, d) := d.naming make
    ((a, []), d)
  | .measured stem fallback make =>
    let (r, d) := d.resolve e stem fallback registry captures
    let (a, d) := d.naming (make r.amount.expr)
    ((a, r.newSlots), d)

/-- Whatever names are taken, the result is as said. -/
def Gives {α : Type} (make : Naming α) (P : α → Prop) : Prop :=
  ∀ names, P (make.run names).1

section Gives

variable {α β : Type} {P : α → Prop} {Q : β → Prop}

theorem gives_pure {a : α} (h : P a) : Gives (pure a) P :=
  fun _ => h

theorem Gives.bind {make : Naming α} {next : α → Naming β} (hmake : Gives make P)
    (hnext : ∀ a, P a → Gives (next a) Q) : Gives (make >>= next) Q :=
  fun names => hnext _ (hmake names) _

end Gives

/-- Whatever the amount is, the result of the plan is as said. -/
def Plan.Makes {α : Type} (P : α → Prop) : Plan α → Prop
  | .plain make => Gives make P
  | .measured _ _ make => ∀ amount, Gives (make amount) P

theorem Plan.Makes.carryOut {α : Type} {P : α → Prop} {plan : Plan α} (h : plan.Makes P) (d : Draft)
    (e : Effect) (registry : Registry) (captures : Captures) :
    P (d.carryOut e plan registry captures).1.1 := by
  cases plan with
  | plain make => exact h _
  | measured stem fallback make => exact h _ _

/-- The stem of the amount, if the plan reads one, is as said. -/
def Plan.StemIs {α : Type} (P : String → Prop) : Plan α → Prop
  | .plain _ => True
  | .measured stem _ _ => P stem

/-- The entry that effects of a kind make. -/
def ScoreField.ofKind? : EffectKind → Option ScoreField
  | .addChips => some chips
  | .addMult => some mult
  | .applyXMult => some xMult
  | .applyXChips => some xChips
  | .applyExpMult => some expMult
  | .applyExpChips => some expChips
  | .addDollars => some dollars
  | _ => none

namespace Effect

/-- The trait that effects of a kind convert. -/
def BaseTrait.ofKind? : EffectKind → Option BaseTrait
  | .convertCardsSuit => some suit
  | .convertCardsRank => some rank
  | _ => none

/-- The plan of an effect that converts cards. -/
def conversion? (e : Effect) (t : Trigger) (trait : BaseTrait) : Option (Plan Output) :=
  let raw := e.params.textOr trait.key "random"
  if raw = "random" then some (.plain (e.drawConversion t trait))
  else (trait.name? raw).map fun name => .fixed (e.convertedOutput t trait (quote name) [])

/-- The plan of an effect, if it means something under the trigger. -/
def plan? (e : Effect) (t : Trigger) : Option (Plan Output) :=
  match e.kind with
  | .addChips | .addMult | .applyXMult | .applyXChips | .applyExpMult | .applyExpChips
  | .addDollars => (ScoreField.ofKind? e.kind).map fun f => .reading f.stem f.fallback f.output
  | .retrigger =>
    if t.hasRepetition then some (.reading "repetitions" (.int 1) retriggerOutput) else none
  | .showMessage => some (.fixed e.showMessage)
  | .balance => some (.fixed balance)
  | .swapChipsMult => some (.fixed swapChipsMult)
  | .savedFromDeath => if t = .roundEnd then some (.fixed savedOutput) else none
  | .destroyTriggeredCard =>
    if t = .cardDiscarded then some (.fixed (destroyedOutput (.fields ["remove = true"])))
    else if t.firesPerCard then
      some (.fixed (destroyedOutput (.closure "SMODS.destroy_cards(context.other_card)")))
    else none
  | .setDollars => some (.reading "dollars" (.int 5) (dollarsOutput (.ofParams e.params .add)))
  | .setSellValue =>
    some (.reading "sell_value" (.int 1)
      (sellValueOutput (.ofParams e.params .add) (e.params.textOr "target" "self")))
  | .modifyInternalVariable => e.target?.map fun name =>
    .reading (name ++ "_change") (.int 1) (modifiedOutput (.ofParams e.params .add) name)
  | .levelUpHand =>
    if e.params.textOr "hand_type" "current" = "current" && !t.playsHand then none
    else some (.measured "levels" (.int 1) e.levelUp)
  | .drawCards => some (.reading "cards" (.int 1) drawCardsOutput)
  | .createJoker => some (.plain e.createJoker)
  | .destroyJoker => some (.plain e.destroyJoker)
  | .copyJoker => some (.plain e.copyJoker)
  | .destroySelf => some (.fixed destroySelf)
  | .createConsumable => some (.plain e.createConsumable)
  | .destroyConsumable => some (.plain e.destroyConsumable)
  | .copyConsumable => some (.plain e.copyConsumable)
  | .createTag => some (.plain e.createTag)
  | .addCardToDeck => some (.fixed e.addCardToDeck)
  | .copyTriggeredCard => if t.firesPerCard then some (.fixed copiedOutput) else none
  | .editTriggeredCard =>
    if t.firesPerCard && !e.editCode.isEmpty then some (.fixed (editedOutput e.editCode)) else none
  | .convertCardsSuit | .convertCardsRank => (BaseTrait.ofKind? e.kind).bind (e.conversion? t)
  | .permaBonus =>
    if t.firesPerCard && startsWith "perma_" e.bonusField then
      some (.reading e.bonusField (.int 1) (bonusOutput e.bonusField))
    else none
  | .editBlindSize =>
    some (.reading "blind_size" (.int 2) (blindSizeOutput (.ofParams e.params .multiply)))
  | .disableBossBlind => some (.fixed disableBossBlind)
  | .setAnte => some (.reading "ante" (.int 1) (anteOutput (.ofParams e.params .add)))
  | .modifyProbability =>
    some (.reading "probability" (.int 2) (probabilityOutput (.ofParams e.params .multiply)))
  | .editHands | .editDiscards | .editHandSize | .editJokerSlots | .editConsumableSlots
  | .editShopSlots | .editInterestCap | .allowDebt =>
    (Quantity.ofKind? e.kind).bind fun q => q.fired.map fun change =>
      .reading q.stem (.int q.fallback) (change.output (q.operation e.params))
  | .freeRerolls | .shortcut | .splashEffect | .discountItems | .reduceFlushStraight
  | .combineSuits | .combineRanks | .showman | .unknown => none

/-- The plan of an effect that holds while the item is owned, if its kind has such a form. -/
def heldPlan? (e : Effect) (owner : String) : Option (Plan PassiveEffect) :=
  match e.kind with
  | .editHandSize | .editHands | .editDiscards | .editJokerSlots | .editConsumableSlots
  | .editShopSlots | .editInterestCap | .allowDebt | .freeRerolls =>
    (Quantity.ofKind? e.kind).map fun q => .reading q.stem (.int q.fallback) (q.moved e.params)
  | .discountItems => some (.reading "discount" (.int 1) (e.discounting owner))
  | .reduceFlushStraight => some (.fixed (.asking ⟨.fourFingers, owner, {}⟩))
  | .shortcut => some (.fixed (.asking ⟨.shortcut, owner, {}⟩))
  | .splashEffect => some (.fixed (.asking ⟨.alwaysScores, owner, {}⟩))
  | .showman => some (.fixed (.asking ⟨.showman, owner, {}⟩))
  | .combineSuits => (e.combineSuits? owner).map fun r => .fixed (.asking r)
  | .combineRanks => (e.combineRanks? owner).map fun r => .fixed (.asking r)
  | _ => none

/-- What the plan of an effect can be: one case for each generator. -/
inductive Planned (e : Effect) (t : Trigger) : Plan Output → Prop
  | score {f : ScoreField} (kind : ScoreField.ofKind? e.kind = some f) :
    Planned e t (.reading f.stem f.fallback f.output)
  | retrigger (kind : e.kind = .retrigger) (repeats : t.hasRepetition = true) :
    Planned e t (.reading "repetitions" (.int 1) retriggerOutput)
  | showMessage (kind : e.kind = .showMessage) : Planned e t (.fixed e.showMessage)
  | balance (kind : e.kind = .balance) : Planned e t (.fixed balance)
  | swapChipsMult (kind : e.kind = .swapChipsMult) : Planned e t (.fixed swapChipsMult)
  | savedFromDeath (kind : e.kind = .savedFromDeath) : Planned e t (.fixed savedOutput)
  | removeCard (kind : e.kind = .destroyTriggeredCard) :
    Planned e t (.fixed (destroyedOutput (.fields ["remove = true"])))
  | destroyCard (kind : e.kind = .destroyTriggeredCard) :
    Planned e t (.fixed (destroyedOutput (.closure "SMODS.destroy_cards(context.other_card)")))
  | setDollars (kind : e.kind = .setDollars) :
    Planned e t (.reading "dollars" (.int 5) (dollarsOutput (.ofParams e.params .add)))
  | setSellValue (kind : e.kind = .setSellValue) :
    Planned e t (.reading "sell_value" (.int 1)
      (sellValueOutput (.ofParams e.params .add) (e.params.textOr "target" "self")))
  | modifyVariable {name : String} (kind : e.kind = .modifyInternalVariable)
    (target : e.target? = some name) :
    Planned e t
      (.reading (name ++ "_change") (.int 1) (modifiedOutput (.ofParams e.params .add) name))
  | levelUp (kind : e.kind = .levelUpHand) : Planned e t (.measured "levels" (.int 1) e.levelUp)
  | drawCards (kind : e.kind = .drawCards) :
    Planned e t (.reading "cards" (.int 1) drawCardsOutput)
  | createJoker (kind : e.kind = .createJoker) : Planned e t (.plain e.createJoker)
  | destroyJoker (kind : e.kind = .destroyJoker) : Planned e t (.plain e.destroyJoker)
  | copyJoker (kind : e.kind = .copyJoker) : Planned e t (.plain e.copyJoker)
  | destroySelf (kind : e.kind = .destroySelf) : Planned e t (.fixed destroySelf)
  | createConsumable (kind : e.kind = .createConsumable) : Planned e t (.plain e.createConsumable)
  | destroyConsumable (kind : e.kind = .destroyConsumable) :
    Planned e t (.plain e.destroyConsumable)
  | copyConsumable (kind : e.kind = .copyConsumable) : Planned e t (.plain e.copyConsumable)
  | createTag (kind : e.kind = .createTag) : Planned e t (.plain e.createTag)
  | addCardToDeck (kind : e.kind = .addCardToDeck) : Planned e t (.fixed e.addCardToDeck)
  | copyTriggeredCard (kind : e.kind = .copyTriggeredCard) : Planned e t (.fixed copiedOutput)
  | editTriggeredCard (kind : e.kind = .editTriggeredCard) :
    Planned e t (.fixed (editedOutput e.editCode))
  | drawConversion {trait : BaseTrait} (kind : BaseTrait.ofKind? e.kind = some trait) :
    Planned e t (.plain (e.drawConversion t trait))
  | convertCards {trait : BaseTrait} {raw name : String}
    (kind : BaseTrait.ofKind? e.kind = some trait) (named : trait.name? raw = some name) :
    Planned e t (.fixed (e.convertedOutput t trait (quote name) []))
  | permaBonus (kind : e.kind = .permaBonus)
    (bonus : startsWith "perma_" e.bonusField = true) :
    Planned e t (.reading e.bonusField (.int 1) (bonusOutput e.bonusField))
  | editBlindSize (kind : e.kind = .editBlindSize) :
    Planned e t (.reading "blind_size" (.int 2) (blindSizeOutput (.ofParams e.params .multiply)))
  | disableBossBlind (kind : e.kind = .disableBossBlind) : Planned e t (.fixed disableBossBlind)
  | setAnte (kind : e.kind = .setAnte) :
    Planned e t (.reading "ante" (.int 1) (anteOutput (.ofParams e.params .add)))
  | modifyProbability (kind : e.kind = .modifyProbability) :
    Planned e t
      (.reading "probability" (.int 2) (probabilityOutput (.ofParams e.params .multiply)))
  | changeQuantity {q : Quantity} {change : Change} (kind : Quantity.ofKind? e.kind = some q)
    (fired : q.fired = some change) :
    Planned e t
      (.reading q.stem (.int q.fallback) (change.output (q.operation e.params)))

theorem planned_of_plan {e : Effect} {t : Trigger} {plan : Plan Output} (h : e.plan? t = some plan) :
    e.Planned t plan := by
  cases hkind : e.kind <;> simp only [plan?, hkind] at h
  case addChips | addMult | applyXMult | applyXChips | applyExpMult | applyExpChips | addDollars =>
    obtain ⟨f, hf, rfl⟩ := Option.map_eq_some_iff.mp h
    exact .score (hkind ▸ hf)
  case editHands | editDiscards | editHandSize | editJokerSlots | editConsumableSlots
      | editShopSlots | editInterestCap | allowDebt =>
    obtain ⟨q, hq, hfired⟩ := Option.bind_eq_some_iff.mp h
    obtain ⟨change, hchange, rfl⟩ := Option.map_eq_some_iff.mp hfired
    exact .changeQuantity (hkind ▸ hq) hchange
  case convertCardsSuit | convertCardsRank =>
    obtain ⟨trait, htrait, hplan⟩ := Option.bind_eq_some_iff.mp h
    simp only [conversion?] at hplan
    split at hplan
    · exact Option.some.inj hplan ▸ .drawConversion (hkind ▸ htrait)
    · obtain ⟨name, hname, rfl⟩ := Option.map_eq_some_iff.mp hplan
      exact .convertCards (hkind ▸ htrait) hname
  case retrigger =>
    obtain ⟨hrepeats, rfl⟩ := Option.ite_some_none_eq_some.mp h
    exact .retrigger hkind hrepeats
  case savedFromDeath =>
    obtain ⟨-, rfl⟩ := Option.ite_some_none_eq_some.mp h
    exact .savedFromDeath hkind
  case destroyTriggeredCard =>
    split at h
    · exact Option.some.inj h ▸ .removeCard hkind
    · obtain ⟨-, rfl⟩ := Option.ite_some_none_eq_some.mp h
      exact .destroyCard hkind
  case modifyInternalVariable =>
    obtain ⟨name, hname, rfl⟩ := Option.map_eq_some_iff.mp h
    exact .modifyVariable hkind hname
  case levelUpHand =>
    obtain ⟨-, hplan⟩ := Option.ite_none_left_eq_some.mp h
    exact Option.some.inj hplan ▸ .levelUp hkind
  case copyTriggeredCard =>
    obtain ⟨-, rfl⟩ := Option.ite_some_none_eq_some.mp h
    exact .copyTriggeredCard hkind
  case editTriggeredCard =>
    obtain ⟨-, rfl⟩ := Option.ite_some_none_eq_some.mp h
    exact .editTriggeredCard hkind
  case permaBonus =>
    obtain ⟨hbonus, rfl⟩ := Option.ite_some_none_eq_some.mp h
    exact .permaBonus hkind (Bool.and_eq_true_iff.mp hbonus).2
  case freeRerolls | shortcut | splashEffect | discountItems | reduceFlushStraight | combineSuits
      | combineRanks | showman | unknown => cases h
  case showMessage => exact Option.some.inj h ▸ .showMessage hkind
  case balance => exact Option.some.inj h ▸ .balance hkind
  case swapChipsMult => exact Option.some.inj h ▸ .swapChipsMult hkind
  case setDollars => exact Option.some.inj h ▸ .setDollars hkind
  case setSellValue => exact Option.some.inj h ▸ .setSellValue hkind
  case drawCards => exact Option.some.inj h ▸ .drawCards hkind
  case createJoker => exact Option.some.inj h ▸ .createJoker hkind
  case destroyJoker => exact Option.some.inj h ▸ .destroyJoker hkind
  case copyJoker => exact Option.some.inj h ▸ .copyJoker hkind
  case destroySelf => exact Option.some.inj h ▸ .destroySelf hkind
  case createConsumable => exact Option.some.inj h ▸ .createConsumable hkind
  case destroyConsumable => exact Option.some.inj h ▸ .destroyConsumable hkind
  case copyConsumable => exact Option.some.inj h ▸ .copyConsumable hkind
  case createTag => exact Option.some.inj h ▸ .createTag hkind
  case addCardToDeck => exact Option.some.inj h ▸ .addCardToDeck hkind
  case editBlindSize => exact Option.some.inj h ▸ .editBlindSize hkind
  case disableBossBlind => exact Option.some.inj h ▸ .disableBossBlind hkind
  case setAnte => exact Option.some.inj h ▸ .setAnte hkind
  case modifyProbability => exact Option.some.inj h ▸ .modifyProbability hkind

/-- What an effect that holds while the item is owned can be: a quantity that is moved, a discount,
or nothing but a request for an override. -/
theorem heldPlan_cases {e : Effect} {owner : String} {plan : Plan PassiveEffect}
    (h : e.heldPlan? owner = some plan) :
    (∃ q, Quantity.ofKind? e.kind = some q ∧
        plan = .reading q.stem (.int q.fallback) (q.moved e.params)) ∨
      (e.kind = .discountItems ∧ plan = .reading "discount" (.int 1) (e.discounting owner)) ∨
      (Quantity.ofKind? e.kind = none ∧ e.kind ≠ .discountItems ∧
        ∃ r, plan = .fixed (.asking r) ∧
          ((∃ function, r = ⟨function, owner, {}⟩) ∨ e.combineSuits? owner = some r ∨
            e.combineRanks? owner = some r)) := by
  unfold heldPlan? at h
  split at h
  case h_10 hkind => exact .inr (.inl ⟨hkind, (Option.some.inj h).symm⟩)
  case h_11 hkind | h_12 hkind | h_13 hkind | h_14 hkind =>
    rw [hkind]
    exact .inr (.inr ⟨rfl, by simp, _, (Option.some.inj h).symm, .inl ⟨_, rfl⟩⟩)
  case h_15 hkind =>
    obtain ⟨r, hr, hplan⟩ := Option.map_eq_some_iff.mp h
    rw [hkind]
    exact .inr (.inr ⟨rfl, by simp, r, hplan.symm, .inr (.inl hr)⟩)
  case h_16 hkind =>
    obtain ⟨r, hr, hplan⟩ := Option.map_eq_some_iff.mp h
    rw [hkind]
    exact .inr (.inr ⟨rfl, by simp, r, hplan.symm, .inr (.inr hr)⟩)
  case h_17 => cases h
  all_goals
    obtain ⟨q, hq, hplan⟩ := Option.map_eq_some_iff.mp h
    exact .inl ⟨q, hq, hplan.symm⟩

end Effect

end JokerRules
