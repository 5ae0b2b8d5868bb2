import JokerRules.Proofs.Brackets.LoneItems

/-! Enhancements that are given to cards. They are the only authored texts that reach the code
without quotes, so the source of every mod is well bracketed exactly if these texts are. For the
converse two items give the enhancement to a card inside different brackets: what fits into both
closes none of them. -/

namespace JokerRules.Brackets

open Text

def editingEffect (authored : String) : Effect where
  id := "e"
  kind := .editTriggeredCard
  params := .ofList [("new_enhancement", .str authored)]

def addingEffect (authored : String) : Effect where
  id := "e"
  kind := .addCardToDeck
  params := .ofList [("enhancement", .str authored)]

theorem text?_single (key name raw : String) :
    Params.text? (.ofList [(name, .str raw)]) key =
      if key = name then nonblank? raw else none := by
  by_cases h : key = name <;> simp [Params.text?, Keyed.ofList, Value.str?, h]

theorem editCode_single {authored raw : String} (hraw : nonblank? authored = some raw) :
    (editingEffect authored).editCode =
      [Effect.setEnhancement Effect.triggered raw ((editingEffect authored).seed "edit_card")] := by
  simp [Effect.editCode, editingEffect, text?_single, hraw, Effect.setEdition?]

theorem editing_scan {authored raw : String} (hraw : nonblank? authored = some raw)
    (hnone : lowerAscii raw ≠ "none") (hrandom : lowerAscii raw ≠ "random") :
    ∃ m, Mod.compile [loneItem .cardScored (editingEffect authored)] {} = .ok m ∧
      (WellBracketed m.source → scan ⟨.code, [.round, .curly, .curly]⟩
        (Effect.centre raw).toList = some ⟨.code, [.round, .curly, .curly]⟩) := by
  have hcode : (editingEffect authored).editCode =
      ["context.other_card:set_ability(" ++ Effect.centre raw ++ ")"] := by
    simp [editCode_single hraw, Effect.setEnhancement, hnone, hrandom, Effect.triggered]
  have hplan : (editingEffect authored).plan? .cardScored =
      some (.fixed (Effect.editedOutput (editingEffect authored).editCode)) := by
    have hkind : (editingEffect authored).kind = .editTriggeredCard := rfl
    have hperCard : Trigger.firesPerCard .cardScored = true := rfl
    simp [Effect.plan?, hkind, hcode, hperCard]
  have hcontext : Surrounds [.round]
      fun text => "context.other_card:set_ability(" ++ text ++ ")" :=
    surrounds_fixed (calm_of_all rfl) rfl rfl
  have hnil : ∀ text ∈ ([] : List String), Neutral text := by simp
  obtain ⟨m, hm, hscan⟩ := loneItem_surrounds (by decide) rfl rfl hplan rfl rfl
    (neutral_fixed rfl) (neutral_fixed rfl)
  refine ⟨m, hm, fun h => ?_⟩
  have hscan := hscan h
  rw [hcode] at hscan
  exact (surrounds_unlines hnil hnil).comp hcontext _ _ hscan

/-- The lines after the one that names the enhancement. -/
def addingRest : List String :=
  [event (unlines ["new_card:start_materialize()", "G.play:emplace(new_card)"]),
    event "G.deck.config.card_limit = G.deck.config.card_limit + 1",
    "draw_card(G.play, G.deck, 90, 'up')",
    "SMODS.calculate_context(\x7b playing_card_added = true, cards = \x7b new_card \x7d \x7d)"]

theorem neutral_addingRest : ∀ line ∈ addingRest, Neutral line := by
  have hshow : Neutral (unlines ["new_card:start_materialize()", "G.play:emplace(new_card)"]) :=
    neutral_unlines (neutral_texts [[.fixed _], [.fixed _]] rfl)
  have hlimit : Neutral "G.deck.config.card_limit = G.deck.config.card_limit + 1" :=
    neutral_fixed rfl
  exact neutral_texts [[.hole _ (neutral_event hshow)], [.hole _ (neutral_event hlimit)],
    [.fixed _], [.fixed _]] rfl

theorem adding_scan {authored raw : String} (hraw : nonblank? authored = some raw)
    (hnone : raw ≠ "none") (hrandom : raw ≠ "random") :
    ∃ m, Mod.compile [loneItem .handPlayed (addingEffect authored)] {} = .ok m ∧
      (WellBracketed m.source → scan ⟨.code, [.curly, .round, .curly, .curly]⟩
        (Effect.centre raw).toList = some ⟨.code, [.curly, .round, .curly, .curly]⟩) := by
  have houtput : (addingEffect authored).addCardToDeck = {
      body := .closure (unlines (["local card_front = " ++
        Effect.cardFront none none ((addingEffect authored).seed "add_card")] ++
        ("local new_card = create_playing_card(\x7b front = card_front, center = " ++
          Effect.centre raw ++ " \x7d, G.discard, true, false, nil, true)") :: addingRest))
      message := some "\"Added Card!\""
      colour := Colour.green } := by
    have htext : (addingEffect authored).params.text? "enhancement" = some raw :=
      (text?_single _ _ authored).trans (if_pos rfl ▸ hraw)
    have hother : ∀ key, key ≠ "enhancement" → (addingEffect authored).params.text? key = none :=
      fun key hkey => (text?_single key _ authored).trans (if_neg hkey)
    simp only [Effect.addCardToDeck, htext, hother "suit" (by decide), hother "rank" (by decide),
      hother "seal" (by decide), hother "edition" (by decide), Effect.setEdition?,
      Option.bind_none, Option.some.injEq, hnone, hrandom, decide_false, Bool.or_false,
      Bool.false_eq_true, if_false, Option.filter_none, Option.toList_none, List.map_nil,
      List.append_nil, addingRest, List.cons_append, List.nil_append]
  have hplan : (addingEffect authored).plan? .handPlayed =
      some (.fixed (addingEffect authored).addCardToDeck) := rfl
  rw [houtput] at hplan
  have hfront : ∀ line ∈ ["local card_front = " ++
      Effect.cardFront none none ((addingEffect authored).seed "add_card")], Neutral line :=
    neutral_texts [[.fixed _, .hole _ (neutral_cardFront none none (neutral_seed _ _))]] rfl
  have hcontext : Surrounds [.curly, .round] fun text =>
      "local new_card = create_playing_card(\x7b front = card_front, center = " ++ text ++
        " \x7d, G.discard, true, false, nil, true)" :=
    surrounds_fixed (calm_of_all rfl) rfl rfl
  obtain ⟨m, hm, hscan⟩ := loneItem_surrounds (by decide) rfl rfl hplan rfl rfl
    (neutral_fixed rfl) (neutral_fixed rfl)
  refine ⟨m, hm, fun h => ?_⟩
  exact (surrounds_unlines hfront neutral_addingRest).comp hcontext _ _ (hscan h)

/-- The enhancements that the effects of an item give as authored. -/
def givenEnhancements (item : Item) : List String :=
  item.rules.flatMap fun r => r.everyEffect.filterMap givenEnhancement?

theorem neutralRules_of_given {item : Item}
    (h : ∀ raw ∈ givenEnhancements item, WellBracketed raw) : NeutralRules item.rules := by
  intro r hr e he raw hraw
  refine (neutral_centre_iff raw).mpr (h raw (List.mem_flatMap.mpr ⟨r, hr, ?_⟩))
  exact List.mem_filterMap.mpr ⟨e, he, hraw⟩

theorem nonblank_of_given {item : Item} {raw : String} (h : raw ∈ givenEnhancements item) :
    ∃ authored, nonblank? authored = some raw := by
  have htext : ∀ (p : Params) (key : String), p.text? key = some raw →
      ∃ authored, nonblank? authored = some raw := by
    intro p key hp
    obtain ⟨authored, -, hauthored⟩ := Option.bind_eq_some_iff.mp hp
    exact ⟨authored, hauthored⟩
  obtain ⟨r, -, hraw⟩ := List.mem_flatMap.mp h
  obtain ⟨e, -, hraw⟩ := List.mem_filterMap.mp hraw
  unfold givenEnhancement? at hraw
  split at hraw
  · exact htext _ _ hraw
  · exact htext _ _ hraw
  · simp at hraw

theorem given_editing {authored raw : String} (hraw : nonblank? authored = some raw) :
    givenEnhancements (loneItem .cardScored (editingEffect authored)) = [raw] := by
  simp [givenEnhancements, loneItem, loneRule, Rule.everyEffect, givenEnhancement?, editingEffect,
    text?_single, hraw]

theorem given_adding {authored raw : String} (hraw : nonblank? authored = some raw) :
    givenEnhancements (loneItem .handPlayed (addingEffect authored)) = [raw] := by
  simp [givenEnhancements, loneItem, loneRule, Rule.everyEffect, givenEnhancement?, addingEffect,
    text?_single, hraw]

theorem wellBracketed_of_lowerAscii {raw word : String} (hword : Neutral word)
    (h : lowerAscii raw = word) : WellBracketed raw :=
  neutral_iff.mp ((neutral_lowerAscii_iff raw).mp (h ▸ hword))

/-- Whatever texts are admitted as enhancements of cards: all mods that keep to them have well
bracketed sources if and only if each of these texts is well bracketed itself. No other authored
text matters. -/
theorem source_wellBracketed_iff (S : String → Prop) :
    (∀ (items : List Item) (settings : ModSettings) (m : Mod),
      settings.registry = Registry.builtin →
      (∀ item ∈ items, ∀ raw ∈ givenEnhancements item, S raw) →
      Mod.compile items settings = .ok m → WellBracketed m.source) ↔
    ∀ authored raw, nonblank? authored = some raw → S raw → WellBracketed raw := by
  constructor
  · intro h authored raw hraw hS
    by_cases hnone : lowerAscii raw = "none"
    · exact wellBracketed_of_lowerAscii (neutral_fixed rfl) hnone
    by_cases hrandom : lowerAscii raw = "random"
    · exact wellBracketed_of_lowerAscii (neutral_fixed rfl) hrandom
    have hnone' : raw ≠ "none" := by
      rintro rfl
      exact hnone (by decide)
    have hrandom' : raw ≠ "random" := by
      rintro rfl
      exact hrandom (by decide)
    obtain ⟨m, hm, hediting⟩ := editing_scan hraw hnone hrandom
    obtain ⟨m', hm', hadding⟩ := adding_scan hraw hnone' hrandom'
    have hsource := h _ _ m rfl (by simpa [given_editing hraw] using hS) hm
    have hsource' := h _ _ m' rfl (by simpa [given_adding hraw] using hS) hm'
    refine (neutral_centre_iff raw).mp (neutral_iff.mpr ?_)
    exact wellBracketed_of_two (by decide) (hediting hsource) (hadding hsource')
  · intro h items settings m hregistry hgiven hm
    refine neutral_iff.mp (neutral_source hregistry (fun item hitem => ?_) hm)
    refine neutralRules_of_given fun raw hraw => ?_
    obtain ⟨authored, hauthored⟩ := nonblank_of_given hraw
    exact h authored raw hauthored (hgiven item hitem raw hraw)

/-- A closing bracket in the enhancement closes the call around it. -/
theorem enhancement_closes_bracket :
    ∃ m, Mod.compile [loneItem .cardScored (editingEffect "x)")] {} = .ok m ∧
      ¬ WellBracketed m.source := by
  have hraw : nonblank? "x)" = some "x)" := by decide
  obtain ⟨m, hm, hscan⟩ := editing_scan hraw (by decide) (by decide)
  refine ⟨m, hm, fun h => ?_⟩
  have hbroken : scan ⟨.code, [.round, .curly, .curly]⟩ (Effect.centre "x)").toList =
      some ⟨.code, [.curly, .curly]⟩ := by decide
  exact absurd (hbroken.symm.trans (hscan h)) (by decide)

end JokerRules.Brackets
