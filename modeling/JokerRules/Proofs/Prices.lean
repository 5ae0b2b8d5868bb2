import JokerRules.Proofs.PriceGames

/-! Prices while items are discounted. The statement that lowers a price has the amount of the
discount behind a minus sign, without parentheses. A reading of the game's state with an offset is a
sum, of which only the offset is then taken off. -/

namespace JokerRules

open Expressions

namespace Effect

def isPercentage (e : Effect) : Bool :=
  let kind := e.params.textOr "discount_type" "flat"
  kind = "percentage" || kind = "percent"

def discountValue (e : Effect) : Value :=
  (e.params.get? "value").getD (.int 1)

def discountAmount (e : Effect) (d : Draft) : Resolved :=
  (d.resolve e "discount" (.int 1) .builtin {}).1

def priceRequest (e : Effect) (d : Draft) : OverrideRequest :=
  ⟨.setCost, d.owner, .ofList [("amount", (e.discountAmount d).amount.expr),
    ("mode", if e.isPercentage then "percentage" else "flat")]⟩

variable {e : Effect} {d : Draft}

theorem request_of_compileHeld (d : Draft) (hkind : e.kind = .discountItems) :
    ∃ held, (e.compileHeld .builtin d).1 = some held ∧ held.request = some (e.priceRequest d) := by
  have hplan : e.heldPlan? d.owner =
      some (.reading "discount" (.int 1) (e.discounting d.owner)) := by
    rw [heldPlan?, hkind]
  refine ⟨e.discounting d.owner (e.discountAmount d).amount.expr, ?_, rfl⟩
  change ((e.compileHeld .builtin).run d).1 = _
  rw [compileHeld_run, hplan]
  rfl

theorem param_amount : (e.priceRequest d).param "amount" = (e.discountAmount d).amount.expr := by
  simp [OverrideRequest.param, priceRequest, Keyed.getD, Keyed.ofList]

theorem discount_priceRequest :
    (e.priceRequest d).discount = lowering e.isPercentage (e.discountAmount d).amount.expr := by
  have hmode : (e.priceRequest d).param "mode" = if e.isPercentage then "percentage" else "flat" := by
    simp [OverrideRequest.param, priceRequest, Keyed.getD, Keyed.ofList]
  rw [discount_eq, param_amount, hmode]
  cases e.isPercentage <;> rfl

theorem discountAmount_eq (e : Effect) (d : Draft) : e.discountAmount d =
    .ofValue e.discountValue e.id (Names.nth "discount" (d.slotNames.getD "discount" 0 + 1)) .builtin
      {} :=
  rfl

theorem exists_codes_discountAmount (e : Effect) (d : Draft) :
    ∃ x, (e.discountAmount d).amount.Codes x := by
  rw [discountAmount_eq]
  exact exists_codes _ e.id (Statement.isNameChar_nth (List.all_eq_true.mp (by decide)) _)

theorem setsPrice_of_not_misgrouped (h : ¬ Misgrouped e.isPercentage e.discountValue)
    {chance : Chance} {g : Game} {cost v : ℚ} (hcost : g "self.cost" = .number cost)
    (hworth : Worth chance g (e.discountAmount d).amount.expr v) :
    SetsPrice chance g (lowering e.isPercentage (e.discountAmount d).amount.expr)
      (discounted e.isPercentage cost v) := by
  obtain ⟨x, hcode⟩ := e.exists_codes_discountAmount d
  rcases hcode.term_or_sum with hterm | ⟨name, r, multiplier, offset, hsum⟩
  · exact setsPrice_term hterm hcost hworth _
  · -- The reading is counted zero times, and it is taken off the whole price.
    have hamount := hsum.amount
    rw [discountAmount_eq] at hamount
    obtain ⟨raw, id, hvalue, hparse, hsome⟩ := ofValue_of_state hamount
    have hoffset : offset.isZero = false :=
      (equals_zero (isFinite_of_parse hparse).2).symm.trans hsum.shifted
    have hwhole : e.isPercentage = false := Bool.eq_false_iff.mpr fun hpercentage =>
      h ⟨raw, id, multiplier, offset, hvalue, hparse, hsome, hoffset, .inl hpercentage⟩
    have hzero : multiplier.isZero = true := (Bool.not_eq_false _).mp fun hcounts =>
      h ⟨raw, id, multiplier, offset, hvalue, hparse, hsome, hoffset, .inr hcounts⟩
    obtain ⟨s, t, hs, ht, rfl⟩ := hsum.worth_iff.mp hworth
    obtain rfl := scaledExpr_eq_zero hzero ht
    have hsets := hsum.setsPrice hcost hs ht false
    rw [hwhole, discounted_eq]
    simpa using hsets

/-- The amount of a misgrouped value is a sum, and the slot that it needs starts with the offset. -/
theorem isSum_of_misgrouped (h : Misgrouped e.isPercentage e.discountValue) (d : Draft) :
    ∃ name r multiplier offset, (e.discountAmount d).amount.IsSum name r multiplier offset ∧
      (e.discountAmount d).newSlots = [{ name, initial := .ofNumber offset }] ∧
      offset.isFinite = true ∧ offset.isZero = false ∧
      (e.isPercentage = true ∨ multiplier.isZero = false) := by
  obtain ⟨raw, id, multiplier, offset, hvalue, hparse, hsome, hoffset, hbad⟩ := h
  obtain ⟨hm, ho⟩ := isFinite_of_parse hparse
  obtain ⟨var, hvar⟩ := Option.isSome_iff_exists.mp hsome
  obtain ⟨r, hr, htemplate⟩ := gauge_of_builtin hvar
  have hshifted : offset.equals (.zero false) = false := (equals_zero ho).trans hoffset
  have hresolved : e.discountAmount d = .ofGameState id multiplier offset .builtin := by
    rw [discountAmount_eq, hvalue]
    simp only [Resolved.ofValue, Encoding.isMarked_of_parse hparse, hparse, if_true]
  refine ⟨offsetName var.label, r, multiplier, offset, ⟨?_, hr, ?_, hm, hshifted⟩, ?_, ho, hoffset,
    hbad⟩
  · simp [hresolved, Resolved.ofGameState, hvar, hshifted, htemplate]
  · exact isPath_read (isNameChar_offsetName hvar)
  · simp [hresolved, Resolved.ofGameState, hvar, hshifted]

/-- What is misgrouped gives a wrong price in some regular game in which its slot holds
the offset. -/
theorem exists_wrong_price (h : Misgrouped e.isPercentage e.discountValue) (d : Draft) :
    ∃ g cost v q, Regular g ∧ g "self.cost" = .number cost ∧
      q ≠ discounted e.isPercentage cost v ∧
      ∀ chance, (∀ s ∈ (e.discountAmount d).newSlots, s.HoldsInitial (priced chance g)) ∧
        Worth chance g (e.discountAmount d).amount.expr v ∧
        SetsPrice chance g (lowering e.isPercentage (e.discountAmount d).amount.expr) q := by
  obtain ⟨name, r, multiplier, offset, hsum, hslots, ho, hoffset, hbad⟩ := isSum_of_misgrouped h d
  have hdecimal : offset.decimal ≠ 0 := by
    rw [Ne, Binary64.decimal_eq_zero_iff, hoffset]
    exact Bool.false_ne_true
  obtain ⟨n, cost, hne⟩ := exists_outcome_ne hdecimal (hbad.imp_right factor_ne_zero)
  refine ⟨shop n cost name offset.decimal, cost, _, _, regular_shop .., shop_price .., hne,
    fun chance => ?_⟩
  have hs := shop_slot n cost name offset.decimal
  have ht := under_scaledExpr multiplier
    (under_of_eval (eval_shop n cost name offset.decimal hsum.gauge chance))
  refine ⟨fun slot hslot => ?_, hsum.worth_iff.mpr ⟨_, _, hs, ht, rfl⟩,
    hsum.setsPrice (shop_price ..) hs ht _⟩
  rw [hslots, List.mem_singleton] at hslot
  subst hslot
  obtain ⟨literal, hdenotes, hcases⟩ := denotes_ofNumber ho
  obtain rfl : literal = offset.literalExpr := hcases.resolve_right fun hzero => by
    rw [hoffset] at hzero
    exact Bool.false_ne_true hzero.1
  rw [Slot.HoldsInitial, hdenotes.value?, under_literalExpr]
  exact congrArg (fun datum => some (some [datum])) hs.symm

/-- Over the game's own state, the override of prices has a statement for every discount. It sets
the price to what the discount announces, whatever the game, unless the amount is misgrouped, and
then there is a regular game in which it sets another price. -/
theorem discount_exact_iff_grouped (hkind : e.kind = .discountItems) (d : Draft) :
    ∃ held r, (e.compileHeld .builtin d).1 = some held ∧ held.request = some r ∧
      (∀ requests, r ∈ requests → ∃ branches,
        (Override.frame .setCost).around branches ∈ Override.overrides requests ∧
        Text.indent 2 (r.forEachCopy r.discount) ∈ branches) ∧
      (∀ chance g, Regular g → ∃ v, Worth chance g (r.param "amount") v) ∧
      (¬ Misgrouped e.isPercentage e.discountValue → ∀ chance g cost v,
        g "self.cost" = .number cost → Worth chance g (r.param "amount") v →
          SetsPrice chance g r.discount (discounted e.isPercentage cost v)) ∧
      (Misgrouped e.isPercentage e.discountValue → ∃ g cost v q, Regular g ∧
        g "self.cost" = .number cost ∧ q ≠ discounted e.isPercentage cost v ∧
        ∀ chance, (∀ s ∈ (e.discountAmount d).newSlots, s.HoldsInitial (priced chance g)) ∧
          Worth chance g (r.param "amount") v ∧ SetsPrice chance g r.discount q) := by
  obtain ⟨held, hheld, hrequest⟩ := request_of_compileHeld d hkind
  refine ⟨held, e.priceRequest d, hheld, hrequest, ?_, ?_, ?_, ?_⟩
  · intro requests hmem
    have hdistinct : e.priceRequest d ∈ Override.requestsFor .setCost requests :=
      ((Override.distinct_requestsFor requests .setCost).mem_iff _).mpr ⟨hmem, rfl⟩
    refine ⟨(Override.requestsFor .setCost requests).map (Override.branch .setCost), ?_,
      List.mem_map.mpr ⟨_, hdistinct, rfl⟩⟩
    rw [← Override.override_eq, Override.overrides]
    refine List.mem_map.mpr ⟨.setCost, List.mem_filter.mpr ⟨by decide, ?_⟩, rfl⟩
    rw [Bool.not_eq_true', List.isEmpty_eq_false_iff]
    exact List.ne_nil_of_mem hdistinct
  · intro chance g hg
    obtain ⟨x, hcode⟩ := e.exists_codes_discountAmount d
    obtain ⟨v, hv⟩ := hcode.exists_eval hg chance
    refine ⟨v, ?_⟩
    rw [param_amount, worth_iff hcode.denotes.1]
    exact under_of_eval hv
  · intro hgrouped chance g cost v hcost hworth
    rw [discount_priceRequest]
    rw [param_amount] at hworth
    exact setsPrice_of_not_misgrouped hgrouped hcost hworth
  · intro hmisgrouped
    rw [discount_priceRequest, param_amount]
    exact exists_wrong_price hmisgrouped d

def discountOf (value : String) : Effect where
  id := "e"
  kind := .discountItems
  params := .ofList [("value", .str value)]

theorem double_ante_taken_off : ∃ r,
    (((discountOf "GAMEVAR:ante|2").compileHeld .builtin { owner := "j" }).1.bind (·.request)) =
      some r ∧
      r.discount = "self.cost = math.max(0, self.cost - (G.GAME.round_resets.ante) * 2)" ∧
      ∀ chance g cost v, g "self.cost" = .number cost → Worth chance g (r.param "amount") v →
        SetsPrice chance g r.discount (max 0 (cost - v)) := by
  obtain ⟨held, r, hheld, hr, -, -, hgrouped, -⟩ :=
    discount_exact_iff_grouped (e := discountOf "GAMEVAR:ante|2") rfl { owner := "j" }
  have hrequest : (((discountOf "GAMEVAR:ante|2").compileHeld .builtin { owner := "j" }).1.bind
      (·.request)) = some r := by
    rw [hheld]
    exact hr
  have hnot : ¬ Misgrouped (discountOf "GAMEVAR:ante|2").isPercentage
      (discountOf "GAMEVAR:ante|2").discountValue := by
    rintro ⟨raw, id, multiplier, offset, hvalue, hparse, -, hoffset, -⟩
    have hraw : (discountOf "GAMEVAR:ante|2").discountValue = .str "GAMEVAR:ante|2" := by
      simp [discountValue, discountOf, Keyed.ofList, Keyed.get?_insert]
    obtain rfl := Value.str.inj (hraw.symm.trans hvalue)
    have hparsed : Encoding.parse "GAMEVAR:ante|2" =
        .ok (.gameState "ante" (.ofInt 2) (.zero false)) := by decide +kernel
    obtain ⟨-, -, rfl⟩ := Encoding.gameState.inj (Except.ok.inj (hparsed.symm.trans hparse))
    exact absurd hoffset (by decide)
  refine ⟨r, hrequest, ?_, fun chance g cost v hcost hworth => ?_⟩
  · have htext : (((discountOf "GAMEVAR:ante|2").compileHeld .builtin { owner := "j" }).1.bind
        (·.request)).map (·.discount) =
          some "self.cost = math.max(0, self.cost - (G.GAME.round_resets.ante) * 2)" := by
      decide +kernel
    rw [hrequest] at htext
    exact Option.some.inj htext
  · exact hgrouped hnot chance g cost v hcost hworth

/-- With an offset of five in the third ante, eleven is announced off a price of twenty, but the
price becomes twenty-one. -/
theorem shifted_ante_raises_price :
    let g := Function.update thirdAnte "self.cost" (.number 20)
    ∃ r, (((discountOf "GAMEVAR:ante|2|5").compileHeld .builtin { owner := "j" }).1.bind
        (·.request)) = some r ∧
      Worth lowest g (r.param "amount") 11 ∧ SetsPrice lowest g r.discount 21 ∧
      discounted false 20 11 = 9 := by
  intro g
  refine ⟨⟨.setCost, "j", .ofList [("mode", "flat"),
    ("amount", "card.ability.extra.ante + (G.GAME.round_resets.ante) * 2")]⟩, by decide +kernel, ?_, ?_,
    by decide +kernel⟩
  · unfold Worth
    decide +kernel
  · refine ⟨priceExpr (sumRemainderExpr false (Slot.read "ante")
      (.binary .multiply (.path "G.GAME.round_resets.ante") (.number 2))), ?_, ?_⟩ <;> decide +kernel

end Effect

end JokerRules
