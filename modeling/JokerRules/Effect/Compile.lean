import JokerRules.Capture
import JokerRules.Effect.Creation
import JokerRules.Effect.Destruction
import JokerRules.Effect.PlayingCard
import JokerRules.Effect.Round
import JokerRules.Effect.Score

/-!
Effects that happen when a rule fires, one by one and bundled.
-/

namespace JokerRules

/-- The code of an effect that happens when a rule fires, unless it means nothing there. -/
def Effect.generate (e : Effect) : Generator Output :=
  match e.kind with
  | .addChips => e.score .chips
  | .addMult => e.score .mult
  | .applyXMult => e.score .xMult
  | .applyXChips => e.score .xChips
  | .applyExpMult => e.score .expMult
  | .applyExpChips => e.score .expChips
  | .addDollars => e.score .dollars
  | .retrigger => e.retrigger
  | .showMessage => return e.showMessage
  | .balance => return balance
  | .swapChipsMult => return swapChipsMult
  | .savedFromDeath => savedFromDeath
  | .destroyTriggeredCard => destroyTriggeredCard
  | .setDollars => e.setDollars
  | .editInterestCap => e.changeQuantity .interestCap
  | .setSellValue => e.setSellValue
  | .allowDebt => e.changeQuantity .debt
  | .modifyInternalVariable => e.modifyVariable
  | .levelUpHand => e.levelUpHand
  | .editHands => e.changeQuantity .hands
  | .editDiscards => e.changeQuantity .discards
  | .editHandSize => e.changeQuantity .handSize
  | .drawCards => e.drawCards
  | .editJokerSlots => e.changeQuantity .jokerSlots
  | .editConsumableSlots => e.changeQuantity .consumableSlots
  | .editShopSlots => e.changeQuantity .shopSlots
  | .editBlindSize => e.editBlindSize
  | .disableBossBlind => return disableBossBlind
  | .setAnte => e.setAnte
  | .modifyProbability => e.modifyProbability
  | .createJoker => e.createJoker
  | .destroyJoker => e.destroyJoker
  | .copyJoker => e.copyJoker
  | .destroySelf => return destroySelf
  | .createConsumable => e.createConsumable
  | .destroyConsumable => e.destroyConsumable
  | .copyConsumable => e.copyConsumable
  | .createTag => e.createTag
  | .addCardToDeck => return e.addCardToDeck
  | .copyTriggeredCard => copyTriggeredCard
  | .editTriggeredCard => e.editTriggeredCard
  | .convertCardsSuit => e.convertCards .suit
  | .convertCardsRank => e.convertCards .rank
  | .permaBonus => e.permaBonus
  | .freeRerolls | .shortcut | .splashEffect | .discountItems | .reduceFlushStraight
  | .combineSuits | .combineRanks | .showman | .unknown => failure

/-- The output of an effect, with its own status message and with the slots of its amount. -/
def Effect.deliver (e : Effect) (slots : List Slot) (output : Output) : Output :=
  let output := match e.ownMessage? with
    | some text => output.announce text
    | none => output
  { output with newSlots := slots ++ output.newSlots }

/-- Compiles an effect. One that has a meaning only while the item is owned is not generated. -/
def Effect.compile (e : Effect) (t : Trigger) (registry : Registry) (captures : Captures) :
    StateM Draft (Option Output) := fun d =>
  let generator := if e.kind.onlyPassive then failure else e.generate
  let (output, bench) := generator.run ⟨t, registry, captures⟩ { draft := d }
  (output.map (e.deliver bench.pending), bench.draft)

/-- Effects that happen in one firing. -/
structure Bundle where
  /-- Statements that capture variables. -/
  prelude : List String := []
  outputs : List Output := []
deriving DecidableEq

namespace Bundle

/-- The statements before the returned table: captures first, then those of each effect. -/
def hoisted (b : Bundle) : List String :=
  b.prelude ++ b.outputs.flatMap (·.hoisted)

def isEmpty (b : Bundle) : Bool :=
  b.outputs.isEmpty

/-- Compiles effects in order and declares their slots. -/
def outputsOf (t : Trigger) (registry : Registry) (captures : Captures) :
    List Effect → StateM Draft (List Output)
  | [] => pure []
  | e :: es => do
    match ← e.compile t registry captures with
    | none => outputsOf t registry captures es
    | some output =>
      modify (·.store e.id output.newSlots)
      return output :: (← outputsOf t registry captures es)

def compile (effects : List Effect) (t : Trigger) (registry : Registry) : StateM Draft Bundle := do
  return {
    prelude := Capture.statements effects
    outputs := ← outputsOf t registry (Capture.captures effects) effects }

end Bundle

end JokerRules
