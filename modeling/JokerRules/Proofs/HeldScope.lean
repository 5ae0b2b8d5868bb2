import JokerRules.Proofs.HeldTexts

/-! Effects that hold while the item is owned run outside any event. Their code takes its amount
from the same values as the effects of a rule, and one reading of the game's state counts the cards
of the event's scoring hand: with that value, and with no other, the code uses an event that it does
not have. -/

namespace JokerRules.HeldScope

open Text Brackets Tokens ContextUses

variable {hint : String}

variable {e : Effect} {d : Draft}

/-- An effect that only asks for an override gives no event to it. -/
theorem uses_asked {owner : String} {r : OverrideRequest}
    (h : (∃ function, r = ⟨function, owner, {}⟩) ∨ e.combineSuits? owner = some r ∨
      e.combineRanks? owner = some r) : ∀ text ∈ requestTexts r, uses text = [] := by
  rcases h with ⟨function, rfl⟩ | h | h
  · intro text htext
    cases htext
  · exact uses_combineSuits h
  · exact uses_combineRanks h

/-- The value under which an effect uses the event. -/
theorem uses_resolve (e : Effect) (d : Draft) (fallback : Int64) {stem : String} (hne : stem ≠ "")
    (hstem : ∀ c ∈ stem.toList, isNameChar c = true) :
    Closed (d.resolve e stem (.int fallback) .builtin {}).1.amount.expr ∧
      (uses (d.resolve e stem (.int fallback) .builtin {}).1.amount.expr = [] ↔
        ∀ value, e.params.get? "value" = some value → ¬CountsScoredHand value) := by
  have hname : ∀ n, Names.nth stem n ≠ "" := by
    intro n
    unfold Names.nth
    split
    · exact hne
    · simp [hne]
  obtain ⟨hclosed, huses⟩ := uses_ofValue ((e.params.get? "value").getD (.int fallback)) e.id
    (hname (d.slotNames.getD stem 0 + 1)) (Statement.isNameChar_nth hstem _)
  refine ⟨hclosed, ?_⟩
  have hvalue : CountsScoredHand ((e.params.get? "value").getD (.int fallback)) ↔
      ∃ value, e.params.get? "value" = some value ∧ CountsScoredHand value := by
    cases e.params.get? "value" with
    | none =>
      constructor
      · rintro ⟨raw, m, o, hraw, -⟩
        cases hraw
      · rintro ⟨value, hnone, -⟩
        cases hnone
    | some value => simp
  have hempty := List.eq_nil_iff_forall_not_mem.trans (forall_congr' fun u => not_congr (huses u))
  refine hempty.trans ?_
  rw [hvalue]
  simp

/-- The code of an effect that holds while the item is owned: its statements and the expressions
that it gives to overrides. -/
def texts (held : PassiveEffect) : List String :=
  held.enter.toList ++ held.exit.toList ++ held.request.toList.flatMap requestTexts

theorem stem_ne_empty : ∀ q ∈ Quantity.holdable, q.stem ≠ "" := by
  decide

theorem uses_texts_hold {q : Quantity} (hq : q ∈ Quantity.holdable) (way : Direction)
    {amount : String} (h : Closed amount) :
    (∀ text ∈ texts { enter := some (q.move way amount), exit := some (q.move way.back amount) },
      uses text = []) ↔ uses amount = [] := by
  simp [texts, (echoes_move hq _ h).uses_eq_nil_iff]

theorem uses_texts_discount (owner amount : String) {mode : String} (hmode : uses mode = []) :
    (∀ text ∈ texts {
        enter := some Effect.refreshPrices
        exit := some Effect.refreshPrices
        request := some ⟨.setCost, owner, .ofList [("amount", amount), ("mode", mode)]⟩ },
      uses text = []) ↔ uses amount = [] := by
  have hparams : requestTexts ⟨.setCost, owner, .ofList [("amount", amount), ("mode", mode)]⟩ =
      [amount, mode] := by
    have hlater : ¬"mode" < "amount" := by decide
    simp [requestTexts, Keyed.ofList, Keyed.insert, Keyed.empty, Keyed.place, hlater]
  simp [texts, hparams, uses_refreshPrices, hmode]

/-- Over the game's own state, the code of an effect that holds while the item is owned uses no
event, except where the effect has an amount and its value counts the cards of the scoring hand.
There it does use one. -/
theorem held_code_uses_no_event_iff {held : PassiveEffect}
    (hheld : (e.compileHeld .builtin d).1 = some held) :
    (∀ text ∈ texts held, uses text = []) ↔
      (Quantity.ofKind? e.kind = none ∧ e.kind ≠ .discountItems) ∨
        ∀ value, e.params.get? "value" = some value → ¬CountsScoredHand value := by
  obtain ⟨plan, hplan, rfl⟩ := Effect.exists_heldPlan hheld
  rcases Effect.heldPlan_cases hplan with
    ⟨q, hquantity, rfl⟩ | ⟨hkind, rfl⟩ | ⟨hnone, hother, r, rfl, hr⟩
  · have hq := Quantity.mem_holdable hquantity
    obtain ⟨way, hmoved⟩ := q.moved_eq e.params
    obtain ⟨hclosed, huses⟩ := uses_resolve e d q.fallback (stem_ne_empty q hq)
      (Quantity.isNameChar_stem q hq)
    simp only [hquantity, reduceCtorEq, false_and, false_or]
    refine Iff.trans ?_ ((uses_texts_hold hq way hclosed).trans huses)
    rw [← hmoved]
    rfl
  · have hname : "discount".toList.all isNameChar = true := by decide
    obtain ⟨-, huses⟩ := uses_resolve e d 1 (by decide) (List.all_eq_true.mp hname)
    simp only [hkind, ne_eq, not_true_eq_false, and_false, false_or]
    refine (uses_texts_discount _ _ ?_).trans huses
    split <;> decide +kernel
  · simp only [hnone, ne_eq, hother, not_false_eq_true, and_self, true_or, iff_true]
    intro text htext
    have htext : text ∈ texts { request := some r } := htext
    exact uses_asked hr text (by simpa [texts] using htext)

/-- A discount of twice the ante and five. -/
def anteDiscount : Effect where
  id := "e"
  kind := .discountItems
  params := .ofList [("value", .str "GAMEVAR:ante|2|5")]

theorem anteDiscount_uses_no_event :
    ∃ held, (anteDiscount.compileHeld .builtin { owner := "j" }).1 = some held ∧
      held.request = some ⟨.setCost, "j", .ofList
        [("amount", "card.ability.extra.ante + (G.GAME.round_resets.ante) * 2"), ("mode", "flat")]⟩ ∧
      ∀ text ∈ texts held, uses text = [] := by
  have hrequest : (anteDiscount.compileHeld .builtin { owner := "j" }).1.bind (·.request) =
      some ⟨.setCost, "j", .ofList
        [("amount", "card.ability.extra.ante + (G.GAME.round_resets.ante) * 2"), ("mode", "flat")]⟩ := by
    decide +kernel
  obtain ⟨held, hheld, hrequest⟩ := Option.bind_eq_some_iff.mp hrequest
  have hvalue : anteDiscount.params.get? "value" = some (.str "GAMEVAR:ante|2|5") := by
    decide +kernel
  have hparse : Encoding.parse "GAMEVAR:ante|2|5" =
      .ok (.gameState "ante" (.ofInt 2) (.ofInt 5)) := by
    decide +kernel
  refine ⟨held, hheld, hrequest, (held_code_uses_no_event_iff hheld).mpr (.inr ?_)⟩
  rintro value hget ⟨raw, multiplier, offset, rfl, hcounts⟩
  obtain rfl := Value.str.inj (Option.some.inj (hvalue.symm.trans hget))
  have hkey := (Encoding.gameState.inj (Except.ok.inj (hparse.symm.trans hcounts))).1
  revert hkey
  decide

/-- An effect by as much as there are cards in the scoring hand. -/
def handCounter (kind : EffectKind) : Effect where
  id := "e"
  kind := kind
  params := .ofList [("value", .str "GAMEVAR:scoring_hand_size")]

/-- A card that enters or leaves the deck has no scoring hand to count, and neither has a price. -/
theorem held_code_uses_event :
    ((handCounter .editHandSize).compileHeld .builtin { owner := "j" }).1 = some {
        enter := some "G.hand:change_size((#(context.scoring_hand or \x7b\x7d)))"
        exit := some "G.hand:change_size(-(#(context.scoring_hand or \x7b\x7d)))" } ∧
      uses "G.hand:change_size((#(context.scoring_hand or \x7b\x7d)))" = [some "scoring_hand"] ∧
      ((handCounter .discountItems).compileHeld .builtin { owner := "j" }).1.bind (·.request) =
        some ⟨.setCost, "j", .ofList
          [("amount", "#(context.scoring_hand or \x7b\x7d)"), ("mode", "flat")]⟩ ∧
      uses "#(context.scoring_hand or \x7b\x7d)" = [some "scoring_hand"] := by
  decide +kernel

end JokerRules.HeldScope
