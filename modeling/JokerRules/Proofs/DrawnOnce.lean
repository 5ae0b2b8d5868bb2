import JokerRules.Proofs.DrawnCode

/-! Amounts that are drawn between two bounds. The code has such an amount as a call, so it draws as
often as the call runs: an effect that also shows the amount in its message shows another draw, and
an effect that applies it in a loop draws for each pass. Every other effect draws once. -/

namespace JokerRules.DrawnOnce

open Text Brackets Tokens Occurrences SlotNames

/-- A plan without an amount has none to draw. -/
def PlanDraws (call : String) (inLoop shown : Bool) : Plan Output → Prop
  | .plain _ => inLoop = false ∧ shown = false
  | .measured _ _ make => Gives (make call) (DrawsAs call inLoop shown)

theorem draws_key {rest : List Token} {k : EffectKind} {f : ScoreField}
    (h : ScoreField.ofKind? k = some f) :
    Draws rest f.key noDraw := by
  cases k <;> cases h <;> exact draws_fixed rfl

section Plans

variable {call : String} {rest : List Token} (hcall : IsDraw call rest)

include hcall

theorem drawsAs_score {f : ScoreField} (hkey : Draws rest f.key noDraw) :
    DrawsAs call false false (f.output call) := by
  have hentry : Draws rest (f.key ++ " = " ++ call) oneDraw :=
    draws_template [.hole _ ⟨_, hkey⟩, .fixed _, .hole _ ⟨_, hcall.draws⟩] rfl
  exact ⟨occurrences_single hcall hentry, rfl⟩

theorem drawsAs_retrigger : DrawsAs call false false (Effect.retriggerOutput call) := by
  have hentry : Draws rest ("repetitions = " ++ call) oneDraw :=
    draws_template [.fixed _, .hole _ ⟨_, hcall.draws⟩] rfl
  exact ⟨occurrences_single hcall hentry, occurrences_single hcall (draws_fixed rfl)⟩

theorem drawsAs_dollars (op : Operation) : DrawsAs call false true (Effect.dollarsOutput op call) := by
  have hdollars : Draws rest "G.GAME.dollars" noDraw := draws_fixed rfl
  have hchange := draws_change op hdollars hcall.draws
  refine ⟨occurrences_single hcall (f := oneDraw) ?_, occurrences_single hcall (f := oneDraw) ?_⟩
  · split <;> exact draws_template [.fixed _, .hole _ ⟨_, hchange⟩, .fixed _] rfl
  · split
    · exact draws_template [.fixed _, .hole _ ⟨_, hcall.draws⟩, .fixed _] rfl
    · rw [dollarMessage_eq]
      exact draws_template [.hole _ ⟨_, draws_quoteWith .double _⟩, .fixed _, .hole _ ⟨_, hcall.draws⟩,
        .fixed _] rfl

theorem draws_sellValueCode (op : Operation) {card : List Char}
    (hcard : sound [(.fixed card : DrawPart rest)] = true) :
    Draws rest (Effect.sellValueCode op (String.ofList card) call) oneDraw := by
  have hcard : Draws rest (String.ofList card) noDraw := draws_fixed hcard
  have hvalue : Draws rest (String.ofList card ++ ".ability.extra_value") noDraw :=
    draws_template [.hole _ ⟨_, hcard⟩, .fixed _] rfl
  exact draws_lines [[.hole _ ⟨_, hvalue⟩, .fixed _, .hole _ ⟨_, hvalue⟩, .fixed _],
    [.hole _ ⟨_, draws_assignment op hvalue hcall.draws⟩], [.hole _ ⟨_, hcard⟩, .fixed _]] rfl

theorem drawsAs_sellValue (op : Operation) (target : String) :
    DrawsAs call (["all_jokers", "all_consumables"].contains target) false
      (Effect.sellValueOutput op target call) := by
  have hcode : Draws rest (Effect.sellValueCode op "target_card" call) oneDraw :=
    draws_sellValueCode hcall _ rfl
  have hneutral : Neutral (Effect.sellValueCode op "target_card" call) :=
    neutral_sellValueCode _ (neutral_fixed rfl) hcall.neutral
  have hbody := hcode.indent hneutral 1
  have hjokers : Draws rest (unlines ["for _, target_card in ipairs(" ++ "G.jokers.cards" ++ ") do", _,
      "end"]) _ :=
    draws_block .loop [_, _, _] rfl hbody rfl
  have hconsumables : Draws rest (unlines ["for _, target_card in ipairs(" ++ "G.consumeables.cards" ++
      ") do", _, "end"]) _ :=
    draws_block .loop [_, _, _] rfl hbody rfl
  refine ⟨?_, occurrences_single hcall (draws_fixed rfl)⟩
  simp only [Effect.sellValueOutput, codeTexts, List.nil_append]
  split
  · next htarget =>
    rw [show ["all_jokers", "all_consumables"].contains target = true by simp [htarget]]
    exact occurrences_single hcall hjokers
  split
  · next htarget =>
    rw [show ["all_jokers", "all_consumables"].contains target = true by simp [htarget]]
    exact occurrences_single hcall hconsumables
  · next hnot hnot' =>
    rw [show ["all_jokers", "all_consumables"].contains target = false by simp [hnot, hnot']]
    exact occurrences_single hcall (draws_sellValueCode hcall _ rfl)

theorem drawsAs_modified (op : Operation) {e : Effect} {name : String} (h : e.target? = some name) :
    DrawsAs call false false (Effect.modifiedOutput op name call) := by
  have hspelled := spelled_target h
  have hwrite := draws_assignment op (draws_read hspelled.nonempty hspelled.chars) hcall.draws
  refine ⟨occurrences_single hcall hwrite, occurrences_single hcall (f := noDraw) ?_⟩
  split <;> exact draws_fixed rfl

theorem drawsAs_bonus {field : String} (h : Legal field) :
    DrawsAs call false false (Effect.bonusOutput field call) := by
  have htarget : Draws rest _ noDraw := draws_bonus h
  have hcode : Draws rest (_ ++ " = (" ++ _ ++ " or 0) + " ++ parenthesised call) oneDraw :=
    draws_template [.hole _ ⟨_, htarget⟩, .fixed _, .hole _ ⟨_, htarget⟩, .fixed _,
      .hole _ ⟨_, draws_parenthesised hcall.draws⟩] rfl
  exact ⟨occurrences_single hcall hcode, occurrences_single hcall (draws_fixed rfl)⟩

theorem draws_levelUpCall {hand : String} (hhand : Draws rest hand noDraw) :
    Draws rest s!"level_up_hand(card, {hand}, true, {call})" oneDraw :=
  draws_template [.fixed _, .hole _ ⟨_, hhand⟩, .fixed _, .hole _ ⟨_, hcall.draws⟩, .fixed _] rfl

theorem drawsAs_levelUp (e : Effect) : Gives (e.levelUp call) (DrawsAs call false false) := by
  have hmessage : Draws rest "localize('k_level_up_ex')" noDraw := draws_fixed rfl
  simp only [Effect.levelUp]
  split
  · have hentry : Draws rest ("level_up = " ++ call) oneDraw :=
      draws_template [.fixed _, .hole _ ⟨_, hcall.draws⟩] rfl
    exact gives_pure ⟨occurrences_single hcall hentry, occurrences_single hcall hmessage⟩
  split
  · have hpool := @gives_quietName rest "hand_pool" (List.all_eq_true.mp (by decide)) (by decide)
    have hchosen := @gives_quietName rest "random_hand" (List.all_eq_true.mp (by decide)) (by decide)
    refine hpool.bind fun pool hpool => hchosen.bind fun chosen hchosen => gives_pure ?_
    have hchoice : Draws rest (randomElement pool (e.seed "level_up_hand")) noDraw :=
      draws_template [.fixed _, .hole _ ⟨_, hpool⟩, .fixed _,
        .hole _ ⟨_, draws_quoteWith .single _⟩, .fixed _] rfl
    have hstatement := draws_chooseHand hpool hchosen hchoice
    exact drawsAs_hoisted hcall hstatement (draws_levelUpCall hcall hchosen) hmessage
  · have hbody := draws_levelUpCall hcall
      (draws_quoteWith .double (e.params.textOr "hand_type" "current"))
    exact gives_pure ⟨occurrences_single hcall hbody, occurrences_single hcall hmessage⟩

theorem drawsAs_drawCards : DrawsAs call false true (Effect.drawCardsOutput call) := by
  have hdrawn : Draws rest ("    SMODS.draw_cards(" ++ call ++ ")") oneDraw :=
    draws_template [.fixed _, .hole _ ⟨_, hcall.draws⟩, .fixed _] rfl
  have hblock : Draws rest (unlines ["if G.deck and #G.deck.cards > 0 then", _, "end"]) _ :=
    draws_block .other [_] rfl hdrawn rfl
  exact ⟨occurrences_single hcall hblock,
    occurrences_single hcall (draws_changeMessage .add hcall.draws (by simp) rfl)⟩

theorem drawsAs_blindSize (op : Operation) :
    DrawsAs call false true (Effect.blindSizeOutput op call) := by
  have hchips : Draws rest "G.GAME.blind.chips" noDraw := draws_fixed rfl
  have hchange := draws_assignment op hchips hcall.draws
  refine ⟨occurrences_single hcall (f := oneDraw) ?_,
    occurrences_single hcall (draws_changeMessage _ hcall.draws (by simp) rfl)⟩
  exact draws_lines [[.hole _ ⟨_, hchange⟩], [.fixed _], [.fixed _], [.fixed _]] rfl

theorem drawsAs_ante (op : Operation) : DrawsAs call false true (Effect.anteOutput op call) := by
  have hante : Draws rest "G.GAME.round_resets.ante" noDraw := draws_fixed rfl
  have hchange := draws_change op hante hcall.draws
  refine ⟨occurrences_single hcall (f := oneDraw) ?_,
    occurrences_single hcall (draws_changeMessage _ hcall.draws (by simp) rfl)⟩
  exact draws_lines [[.fixed _, .hole _ ⟨_, hchange⟩], [.fixed _], [.fixed _, .fixed _], [.fixed _]] rfl

theorem drawsAs_probability (op : Operation) :
    DrawsAs call true true (Effect.probabilityOutput op call) := by
  have hentry : Draws rest "G.GAME.probabilities[probability_key]" noDraw := draws_fixed rfl
  have hchange := draws_assignment op hentry hcall.draws
  have hline : Draws rest ("    " ++ _) oneDraw := draws_template [.fixed _, .hole _ ⟨_, hchange⟩] rfl
  have hblock : Draws rest (unlines ["for probability_key in pairs(G.GAME.probabilities) do", _,
      "end"]) _ :=
    draws_block .loop [_] rfl hline rfl
  exact ⟨occurrences_single hcall hblock,
    occurrences_single hcall (draws_changeMessage _ hcall.draws (by simp) rfl)⟩

theorem draws_stored (op : Operation) {target : String} (htarget : Draws rest target noDraw) :
    Draws rest ((Lever.stored target).apply op call) oneDraw :=
  draws_assignment op htarget hcall.draws

theorem draws_eased (op : Operation) {function current : String} (hfunction : Draws rest function noDraw)
    (hcurrent : Draws rest current noDraw) :
    Draws rest ((Lever.eased function current).apply op call) oneDraw :=
  draws_template [.hole _ ⟨_, hfunction⟩, .fixed _, .hole _ ⟨_, draws_change op hcurrent hcall.draws⟩,
    .fixed _] rfl

theorem drawsAs_change {k : EffectKind} {q : Quantity} {change : Change}
    (hkind : Quantity.ofKind? k = some q) (hfired : q.fired = some change) (op : Operation) :
    DrawsAs call false (showsAmount k) (change.output op call) := by
  unfold Quantity.ofKind? at hkind
  split at hkind <;> cases hkind <;> cases hfired
  case h_1 | h_2 | h_3 | h_6 =>
    refine ⟨occurrences_single hcall (f := oneDraw) ?_, occurrences_single hcall (f := oneDraw) ?_⟩
    · exact draws_eased hcall _ (draws_fixed rfl) (draws_fixed rfl)
    · exact draws_changeMessage _ hcall.draws (by simp) rfl
  case h_4 | h_5 =>
    refine ⟨occurrences_single hcall (f := oneDraw) ?_, occurrences_single hcall (f := oneDraw) ?_⟩
    · exact draws_stored hcall _ (draws_fixed rfl)
    · exact draws_changeMessage _ hcall.draws (by simp) rfl
  case h_7 | h_8 =>
    refine ⟨occurrences_single hcall (f := oneDraw) ?_, occurrences_single hcall (f := noDraw) ?_⟩
    · exact draws_stored hcall _ (draws_fixed rfl)
    · exact draws_quoteWith .double _

/-- The plan of an effect draws as its kind and parameters say. -/
theorem planDraws_plan {e : Effect} {t : Trigger} {plan : Plan Output} (h : e.plan? t = some plan) :
    PlanDraws call (appliesInLoop e) (showsAmount e.kind) plan := by
  cases Effect.planned_of_plan h with
  | @score f kind =>
    have hflags : appliesInLoop e = false ∧ showsAmount e.kind = false := by
      cases hkind : e.kind <;> rw [hkind] at kind <;> cases kind <;>
        simp only [appliesInLoop, showsAmount, hkind, and_self]
    rw [hflags.1, hflags.2]
    exact gives_pure (drawsAs_score hcall (draws_key kind))
  | @changeQuantity q change kind fired =>
    have hflag : appliesInLoop e = false := by
      cases hkind : e.kind <;> rw [hkind] at kind <;> cases kind <;> simp only [appliesInLoop, hkind]
    rw [hflag]
    exact gives_pure (drawsAs_change hcall kind fired _)
  | drawConversion kind | convertCards kind =>
    cases hkind : e.kind <;> rw [hkind] at kind <;> cases kind <;>
      simp only [PlanDraws, appliesInLoop, showsAmount, hkind, and_self]
  | retrigger kind =>
    simp only [appliesInLoop, showsAmount, kind]
    exact gives_pure (drawsAs_retrigger hcall)
  | setDollars kind =>
    simp only [appliesInLoop, showsAmount, kind]
    exact gives_pure (drawsAs_dollars hcall _)
  | setSellValue kind =>
    simp only [appliesInLoop, showsAmount, kind]
    exact gives_pure (drawsAs_sellValue hcall _ _)
  | modifyVariable kind target =>
    simp only [appliesInLoop, showsAmount, kind]
    exact gives_pure (drawsAs_modified hcall _ target)
  | levelUp kind =>
    simp only [appliesInLoop, showsAmount, kind]
    exact drawsAs_levelUp hcall e
  | drawCards kind =>
    simp only [appliesInLoop, showsAmount, kind]
    exact gives_pure (drawsAs_drawCards hcall)
  | permaBonus kind bonus =>
    simp only [appliesInLoop, showsAmount, kind]
    exact gives_pure (drawsAs_bonus hcall (legal_bonus bonus))
  | editBlindSize kind =>
    simp only [appliesInLoop, showsAmount, kind]
    exact gives_pure (drawsAs_blindSize hcall _)
  | setAnte kind =>
    simp only [appliesInLoop, showsAmount, kind]
    exact gives_pure (drawsAs_ante hcall _)
  | modifyProbability kind =>
    simp only [appliesInLoop, showsAmount, kind]
    exact gives_pure (drawsAs_probability hcall _)
  | _ kind => simp only [PlanDraws, appliesInLoop, showsAmount, kind, and_self]

end Plans

/-- The call that draws the amount of an effect between two bounds, if the effect reads
an amount. -/
def draw? (e : Effect) (t : Trigger) (d : Draft) (low high : Binary64) : Option String :=
  match e.plan? t with
  | some (.measured stem _ _) =>
    some (Resolved.ofRange low high e.id (d.nextSlotName stem).1).amount.expr
  | _ => none

section Effects

variable {e : Effect} {t : Trigger} {registry : Registry} {captures : Captures} {d : Draft}
  {raw : String} {low high : Binary64} {output : Output}

theorem isDraw_ofRange {stem : String} (h : Legal stem) (d : Draft) (low high : Binary64)
    (id : String) :
    ∃ rest, IsDraw (Resolved.ofRange low high id (d.nextSlotName stem).1).amount.expr rest :=
  isDraw_drawn _ (h.nth _).bounds.1 (h.nth _).bounds.2

theorem resolve_range (hvalue : e.params.get? "value" = some (.str raw))
    (hraw : Encoding.parse raw = .ok (.range low high)) (stem : String) (fallback : Value) :
    (d.resolve e stem fallback registry captures).1 =
      Resolved.ofRange low high e.id (d.nextSlotName stem).1 := by
  simp only [Draft.resolve, hvalue, Option.getD_some, Resolved.ofValue,
    Encoding.isMarked_of_parse hraw, if_true, hraw]

/-- The effect draws as its kind and parameters say. -/
theorem drawsAs_compile (hvalue : e.params.get? "value" = some (.str raw))
    (hraw : Encoding.parse raw = .ok (.range low high))
    (h : ((e.compile t registry captures).run d).1 = some output) :
    (∀ call ∈ draw? e t d low high,
      DrawsAs call (appliesInLoop e) (showsAmount e.kind && e.ownMessage?.isNone) output) ∧
      (draw? e t d low high = none → appliesInLoop e = false ∧ showsAmount e.kind = false) := by
  cases hplan : e.plan? t with
  | none =>
    rw [Effect.compile_run, hplan] at h
    cases h
  | some plan =>
    rw [Effect.compile_eq hplan] at h
    obtain rfl := Option.some.inj h
    cases plan with
    | plain make =>
      obtain ⟨rest, hcall⟩ := isDraw_ofRange (legal_fixedStems "chips" (by decide)) d low high e.id
      have hplain : appliesInLoop e = false ∧ showsAmount e.kind = false := planDraws_plan hcall hplan
      simpa [draw?, hplan] using hplain
    | measured stem fallback make =>
      obtain ⟨rest, hcall⟩ := isDraw_ofRange (legalStem_plan hplan) d low high e.id
      have hdraws := planDraws_plan hcall hplan
      simp only [draw?, hplan, Option.mem_some_iff, forall_eq', reduceCtorEq, false_implies, and_true]
      refine DrawsAs.deliver hcall ?_ e _
      simp only [Draft.carryOut, Draft.naming, resolve_range hvalue hraw]
      exact hdraws _

theorem drawsOf_compile (hvalue : e.params.get? "value" = some (.str raw))
    (hraw : Encoding.parse raw = .ok (.range low high))
    (h : ((e.compile t registry captures).run d).1 = some output) {call : String}
    (hcall : draw? e t d low high = some call) :
    drawsOf call output =
      appliesInLoop e :: if showsAmount e.kind && e.ownMessage?.isNone then [false] else [] :=
  drawsOf_eq ((drawsAs_compile hvalue hraw h).1 call hcall)

/-- An effect with a drawn amount draws, and it draws once and outside loops exactly if it does not
apply the amount in a loop and its message does not show it. -/
theorem amount_drawn_once_iff (hvalue : e.params.get? "value" = some (.str raw))
    (hraw : Encoding.parse raw = .ok (.range low high))
    (h : ((e.compile t registry captures).run d).1 = some output) :
    (∀ call ∈ draw? e t d low high, drawsOf call output ≠ []) ∧
      ((∀ call ∈ draw? e t d low high,
          (drawsOf call output).length ≤ 1 ∧ true ∉ drawsOf call output) ↔
        appliesInLoop e = false ∧ (showsAmount e.kind = true → e.ownMessage?.isSome = true)) := by
  cases hcall : draw? e t d low high with
  | none => simp [(drawsAs_compile hvalue hraw h).2 hcall]
  | some call =>
    simp only [Option.mem_some_iff, forall_eq', drawsOf_compile hvalue hraw h hcall]
    cases appliesInLoop e <;> cases showsAmount e.kind <;> cases e.ownMessage? <;> simp

end Effects

theorem parse_dice : Encoding.parse "RANGE:1|3" = .ok (.range (.ofInt 1) (.ofInt 3)) := by
  decide +kernel

/-- Between one and three more hands, with a message of its own. -/
def luckyHands : Effect where
  id := "e"
  kind := .editHands
  params := .ofList [("value", .str "RANGE:1|3")]
  message := some "Lucky!"

theorem luckyHands_drawn_once :
    draw? luckyHands .handPlayed { owner := "j" } (.ofInt 1) (.ofInt 3) =
        some "pseudorandom('hands_e', card.ability.extra.hands_min, card.ability.extra.hands_max)" ∧
      ∃ output, ((luckyHands.compile .handPlayed .builtin {}).run { owner := "j" }).1 = some output ∧
        ∀ call ∈ draw? luckyHands .handPlayed { owner := "j" } (.ofInt 1) (.ofInt 3),
          drawsOf call output ≠ [] ∧ (drawsOf call output).length ≤ 1 ∧
            true ∉ drawsOf call output := by
  have hvalue : luckyHands.params.get? "value" = some (.str "RANGE:1|3") := by
    simp [luckyHands, Keyed.ofList, Keyed.get?_insert]
  have hcompiled : ((luckyHands.compile .handPlayed .builtin {}).run { owner := "j" }).1.isSome = true ∧
      draw? luckyHands .handPlayed { owner := "j" } (.ofInt 1) (.ofInt 3) =
        some "pseudorandom('hands_e', card.ability.extra.hands_min, card.ability.extra.hands_max)" := by
    decide +kernel
  obtain ⟨hsome, hdraw⟩ := hcompiled
  obtain ⟨output, houtput⟩ := Option.isSome_iff_exists.mp hsome
  obtain ⟨hdraws, honce⟩ := amount_drawn_once_iff hvalue parse_dice houtput
  have honce := honce.mpr ⟨rfl, fun _ => rfl⟩
  exact ⟨hdraw, output, houtput, fun call hcall => ⟨hdraws call hcall, honce call hcall⟩⟩

/-- Between one and three, for a kind of effect and a target. -/
def diceRoll (kind : EffectKind) (target : String) : Effect where
  id := "e"
  kind := kind
  params := .ofList [("value", .str "RANGE:1|3"), ("target", .str target)]

theorem drawsOf_diceRoll {kind : EffectKind} {target call : String}
    (hcall : draw? (diceRoll kind target) .handPlayed { owner := "j" } (.ofInt 1) (.ofInt 3)
        = some call) :
    ∃ output,
      (((diceRoll kind target).compile .handPlayed .builtin {}).run { owner := "j" }).1 = some output ∧
        drawsOf call output = appliesInLoop (diceRoll kind target) ::
          if showsAmount kind then [false] else [] := by
  have hvalue : (diceRoll kind target).params.get? "value" = some (.str "RANGE:1|3") := by
    simp [diceRoll, Keyed.ofList, Keyed.get?_insert]
  cases hplan : (diceRoll kind target).plan? .handPlayed with
  | none => simp [draw?, hplan] at hcall
  | some plan =>
    have houtput := Effect.compile_eq hplan .builtin {} { owner := "j" }
    have hdraws := drawsOf_compile hvalue parse_dice houtput hcall
    exact ⟨_, houtput, by simpa [diceRoll, Effect.ownMessage?] using hdraws⟩

/-- The message for more hands shows a second draw, and each joker's sell value changes by a draw of
its own. -/
theorem amount_drawn_again :
    (∃ output,
      (((diceRoll .editHands "").compile .handPlayed .builtin {}).run { owner := "j" }).1 = some output ∧
        drawsOf "pseudorandom('hands_e', card.ability.extra.hands_min, card.ability.extra.hands_max)"
          output = [false, false]) ∧
      ∃ output, (((diceRoll .setSellValue "all_jokers").compile .handPlayed .builtin {}).run
          { owner := "j" }).1 = some output ∧
        drawsOf ("pseudorandom('sell_value_e', card.ability.extra.sell_value_min, " ++
          "card.ability.extra.sell_value_max)") output = [true] :=
  ⟨drawsOf_diceRoll (by decide +kernel), drawsOf_diceRoll (by decide +kernel)⟩

end JokerRules.DrawnOnce
