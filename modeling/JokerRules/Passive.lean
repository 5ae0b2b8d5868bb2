import JokerRules.Card
import JokerRules.Effect.Code
import JokerRules.Effect.Quantity
import JokerRules.Override
import JokerRules.Rule

/-!
Effects that hold while the item is owned: a statement for when the card enters the deck, its
inverse for when it leaves, and perhaps an override.
-/

namespace JokerRules

open Text

structure PassiveEffect where
  enter : Option String := none
  exit : Option String := none
  request : Option OverrideRequest := none
deriving DecidableEq

/-- Nothing but a request for an override. -/
def PassiveEffect.asking (r : OverrideRequest) : PassiveEffect :=
  { request := some r }

/-- Moves a quantity on entering and back on leaving. It goes up unless the operation subtracts. -/
def Quantity.moved (q : Quantity) (p : Params) (v : String) : PassiveEffect :=
  let lowers := q.operation p = .subtract
  let move (op : Operation) := unlines (q.held.map (·.apply op v))
  { enter := some (move (if lowers then .subtract else .add))
    exit := some (move (if lowers then .add else .subtract)) }

namespace Effect

def holdQuantity (e : Effect) (q : Quantity) : Generator PassiveEffect := do
  return q.moved e.params (← e.amount q.stem (.int q.fallback))

/-- Recomputes the prices of all cards. -/
def refreshPrices : String :=
  event (unlines [
    "for _, item in pairs(G.I.CARD) do",
    "    if item.set_cost then",
    "        item:set_cost()",
    "    end",
    "end"])

def discounting (e : Effect) (owner v : String) : PassiveEffect :=
  let kind := e.params.textOr "discount_type" "flat"
  let mode := if kind = "percentage" || kind = "percent" then "percentage" else "flat"
  { enter := some refreshPrices
    exit := some refreshPrices
    request := some ⟨.setCost, owner, .ofList [("amount", v), ("mode", mode)]⟩ }

def discountItems (e : Effect) (owner : String) : Generator PassiveEffect := do
  return e.discounting owner (← e.amount "discount" (.int 1))

/-- Two different suits that stand for each other. -/
def combineSuits? (e : Effect) (owner : String) : Option OverrideRequest := do
  let a ← Suit.parse? (e.params.textOr "suit_1" "Hearts")
  let b ← Suit.parse? (e.params.textOr "suit_2" "Diamonds")
  if a = b then none
  else some ⟨.isSuit, owner, .ofList [("suit_1", quote a.name), ("suit_2", quote b.name)]⟩

/-- The numbers of a list of ranks divided by commas, or of the face cards. -/
def rankIds? (raw : String) : Option (List Nat) :=
  if lowerAscii raw = "face" then some [11, 12, 13]
  else
    let parts := (splitWhere (· == ',') raw.toList).map String.ofList
    (parts.filter fun s => trim s ≠ "").mapM fun s => (Rank.parse? s).map (·.id)

/-- The test whether a card's number is one of a list of ranks. -/
def anyRank? (raw : String) : Option String :=
  (rankIds? raw).bind fun ids =>
    if ids.isEmpty then none
    else some ("(" ++ " or ".intercalate (ids.map fun id => "id == " ++ toString id) ++ ")")

/-- Ranks that count as another one. -/
def combineRanks? (e : Effect) (owner : String) : Option OverrideRequest := do
  let ranks ← anyRank? (e.params.textOr "source_ranks" "face")
  let target ← Rank.parse? (e.params.textOr "target_rank" "K")
  return ⟨.getId, owner, .ofList [("matches", ranks), ("target", toString target.id)]⟩

/-- The code of an effect that holds while the item is owned, if its kind has such a form. -/
def generateHeld (e : Effect) : Generator PassiveEffect := do
  let owner ← Generator.owner
  match e.kind with
  | .editHandSize => e.holdQuantity .handSize
  | .editHands => e.holdQuantity .hands
  | .editDiscards => e.holdQuantity .discards
  | .editJokerSlots => e.holdQuantity .jokerSlots
  | .editConsumableSlots => e.holdQuantity .consumableSlots
  | .editShopSlots => e.holdQuantity .shopSlots
  | .editInterestCap => e.holdQuantity .interestCap
  | .allowDebt => e.holdQuantity .debt
  | .freeRerolls => e.holdQuantity .freeRerolls
  | .discountItems => e.discountItems owner
  | .reduceFlushStraight => return .asking ⟨.fourFingers, owner, {}⟩
  | .shortcut => return .asking ⟨.shortcut, owner, {}⟩
  | .splashEffect => return .asking ⟨.alwaysScores, owner, {}⟩
  | .showman => return .asking ⟨.showman, owner, {}⟩
  | .combineSuits =>
    let some request := e.combineSuits? owner | failure
    return .asking request
  | .combineRanks =>
    let some request := e.combineRanks? owner | failure
    return .asking request
  | _ => failure

/-- Compiles an effect that holds while the item is owned, and declares its slots. -/
def compileHeld (e : Effect) (registry : Registry) : StateM Draft (Option PassiveEffect) := fun d =>
  match e.generateHeld.run ⟨.passive, registry, {}⟩ { draft := d } with
  | (none, bench) => (none, bench.draft)
  | (some effect, bench) => (some effect, bench.draft.storePassive e.id bench.pending)

end Effect

/-- What the passive rules of an item contribute. -/
structure DeckCode where
  addToDeck : List String := []
  removeFromDeck : List String := []
  requests : List OverrideRequest := []
deriving DecidableEq

namespace DeckCode

def isEmpty (p : DeckCode) : Bool :=
  p.addToDeck.isEmpty && p.removeFromDeck.isEmpty && p.requests.isEmpty

def ofEffects (effects : List PassiveEffect) : DeckCode where
  addToDeck := effects.filterMap (·.enter)
  removeFromDeck := effects.filterMap (·.exit)
  requests := effects.filterMap (·.request)

def compileEffects (registry : Registry) : List Effect → StateM Draft (List PassiveEffect)
  | [] => pure []
  | e :: es => do
    let compiled ← e.compileHeld registry
    return compiled.toList ++ (← compileEffects registry es)

/-- Compiles a rule as a passive one. Conditions and random groups have no meaning for effects that
always hold. -/
def compileRule (rule : Rule) (registry : Registry) : StateM Draft DeckCode := do
  return ofEffects (← compileEffects registry rule.effects)

/-- Compiles the passive rules among the given ones, as if they were one. -/
def compile (rules : List Rule) (registry : Registry) : StateM Draft DeckCode := do
  let passive := rules.filter (·.trigger == .passive)
  return ofEffects (← compileEffects registry (passive.flatMap (·.effects)))

end DeckCode

end JokerRules
