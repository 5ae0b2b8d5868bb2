import JokerRules.Proofs.Brackets.PlayingCards
import JokerRules.Proofs.Brackets.RoundEffects

/-! The plans of effects make neutral code of neutral amounts. -/

namespace JokerRules.Brackets

open Text

/-- The enhancement that the effect gives to a card as authored. It stands unquoted in the code. -/
def givenEnhancement? (e : Effect) : Option String :=
  match e.kind with
  | .addCardToDeck => e.params.text? "enhancement"
  | .editTriggeredCard => e.params.text? "new_enhancement"
  | _ => none

theorem tidy_plan (e : Effect) (t : Trigger)
    (h : ∀ raw ∈ givenEnhancement? e, Neutral (Effect.centre raw)) :
    ∀ plan ∈ e.plan? t, TidyPlan TidyOutput plan := by
  intro plan hplan
  cases Effect.planned_of_plan hplan with
  | score kind => exact tidy_reading _ (tidy_field kind).stem fun _ hv => (tidy_field kind).output hv
  | retrigger => exact tidy_reading _ (plain_fixed (by decide)) fun _ hv => tidy_retrigger hv
  | showMessage => exact tidy_fixed (tidy_showMessage e)
  | balance => exact tidy_fixed tidy_balance
  | swapChipsMult => exact tidy_fixed tidy_swapChipsMult
  | savedFromDeath => exact tidy_fixed tidy_saved
  | removeCard => exact tidy_fixed (tidy_destroyed (neutral_texts [[.fixed _]] rfl))
  | destroyCard =>
    have hcall : Neutral "SMODS.destroy_cards(context.other_card)" := neutral_fixed rfl
    exact tidy_fixed (tidy_destroyed hcall)
  | setDollars => exact tidy_reading _ (plain_fixed (by decide)) fun _ hv => tidy_dollars hv _
  | setSellValue => exact tidy_reading _ (plain_fixed (by decide)) fun _ hv => tidy_sellValue hv _ _
  | modifyVariable _ target =>
    have hname := plain_target target
    exact tidy_reading _ (hname.append (plain_fixed (by decide))) fun _ hv => tidy_modified hv _ hname
  | levelUp => exact ⟨plain_fixed (by decide), fun _ hv => tidy_levelUp hv e⟩
  | drawCards => exact tidy_reading _ (plain_fixed (by decide)) fun _ hv => tidy_drawCards hv
  | createJoker => exact tidy_createJoker e
  | destroyJoker => exact tidy_destroyJoker e
  | copyJoker => exact tidy_copyJoker e
  | destroySelf => exact tidy_fixed tidy_destroySelf
  | createConsumable => exact tidy_createConsumable e
  | destroyConsumable => exact tidy_destroyConsumable e
  | copyConsumable => exact tidy_copyConsumable e
  | createTag => exact tidy_createTag e
  | addCardToDeck kind =>
    exact tidy_fixed (tidy_addCardToDeck e fun raw hraw => h raw (by rwa [givenEnhancement?, kind]))
  | copyTriggeredCard => exact tidy_fixed tidy_copied
  | editTriggeredCard kind =>
    exact tidy_fixed (tidy_edited (neutral_editCode e fun raw hraw =>
      h raw (by rwa [givenEnhancement?, kind])))
  | drawConversion kind => exact (tidy_trait kind).drawn e t
  | convertCards kind => exact tidy_fixed ((tidy_trait kind).converted e t (neutral_quote _) (by simp))
  | permaBonus =>
    have hfield : Plain e.bonusField := plain_identifier _
    exact tidy_reading _ hfield fun _ hv => tidy_bonus hfield hv
  | editBlindSize => exact tidy_reading _ (plain_fixed (by decide)) fun _ hv => tidy_blindSize hv _
  | disableBossBlind => exact tidy_fixed tidy_disableBossBlind
  | setAnte => exact tidy_reading _ (plain_fixed (by decide)) fun _ hv => tidy_ante hv _
  | modifyProbability =>
    exact tidy_reading _ (plain_fixed (by decide)) fun _ hv => tidy_probability hv _
  | changeQuantity kind fired =>
    exact tidy_reading _ (tidy_quantity kind).stem fun _ hv =>
      ((tidy_quantity kind).fired _ fired).output hv _

end JokerRules.Brackets
