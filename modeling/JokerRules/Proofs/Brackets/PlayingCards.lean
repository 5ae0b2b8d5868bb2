import JokerRules.Proofs.Brackets.HeldCards

/-! Effects on playing cards. One family of texts needs a word of its own: an enhancement that is
given to a card stands unquoted in the code, so an effect that gives one is tidy only if the
enhancement's text is. -/

namespace JokerRules.Brackets

open Text

theorem neutral_setEnhancement {card raw seed : String} (hcard : Neutral card)
    (hseed : Neutral seed) (hcentre : Neutral (Effect.centre raw)) :
    Neutral (Effect.setEnhancement card raw seed) := by
  refine neutral_ite ?_ (neutral_ite ?_ ?_)
  · exact neutral_template [.hole _ hcard, .fixed _] rfl
  · exact neutral_template [.hole _ hcard, .fixed _, .hole _ hseed, .fixed _] rfl
  · exact neutral_template [.hole _ hcard, .fixed _, .hole _ hcentre, .fixed _] rfl

theorem neutral_randomEnhancement {card seed : String} (hcard : Neutral card)
    (hseed : Neutral seed) : Neutral (Effect.setEnhancement card "random" seed) := by
  have hlower : lowerAscii "random" = "random" := by decide
  have hcall : Effect.setEnhancement card "random" seed = card ++
      ":set_ability(SMODS.poll_enhancement(\x7b guaranteed = true, key = " ++ seed ++ " \x7d))" := by
    simp [Effect.setEnhancement, hlower]
  rw [hcall]
  exact neutral_template [.hole _ hcard, .fixed _, .hole _ hseed, .fixed _] rfl

theorem neutral_setSeal {card seed : String} (hcard : Neutral card) (raw : String)
    (hseed : Neutral seed) : Neutral (Effect.setSeal card raw seed) := by
  refine neutral_ite ?_ (neutral_ite ?_ ?_)
  · exact neutral_template [.hole _ hcard, .fixed _] rfl
  · exact neutral_template [.hole _ hcard, .fixed _, .hole _ hseed, .fixed _] rfl
  · exact neutral_template [.hole _ hcard, .fixed _, .hole _ (neutral_quote _), .fixed _] rfl

theorem neutral_cardFront (suit : Option Suit) (rank : Option Rank) {seed : String}
    (hseed : Neutral seed) : Neutral (Effect.cardFront suit rank seed) := by
  have hsuit : ∀ s : Suit, Plain s.letter := fun s => by cases s <;> exact plain_fixed (by decide)
  have hrank : ∀ r : Rank, Plain r.letter := fun r => by cases r <;> exact plain_fixed (by decide)
  cases suit with
  | none =>
    cases rank with
    | none =>
      have hcards : Neutral "G.P_CARDS" := neutral_fixed rfl
      exact neutral_randomElement hcards hseed
    | some rank =>
      exact neutral_template [.fixed _, .hole _ (neutral_randomName _ hseed), .fixed _,
        .word _ (hrank rank), .fixed _] rfl
  | some suit =>
    cases rank with
    | none =>
      exact neutral_template [.fixed _, .word _ (hsuit suit), .fixed _,
        .hole _ (neutral_randomName _ hseed), .fixed _] rfl
    | some rank =>
      exact neutral_template [.fixed _, .hole _ (neutral_singleQuoted _), .fixed _] rfl

theorem neutral_newCentre (choice : Option String) :
    (∀ raw ∈ choice, Neutral (Effect.centre raw)) → Neutral (match choice with
      | some raw => if raw = "none" || raw = "random" then "G.P_CENTERS.c_base"
        else Effect.centre raw
      | none => "G.P_CENTERS.c_base") := by
  intro h
  cases choice with
  | none => exact neutral_fixed rfl
  | some raw => exact neutral_ite (neutral_fixed rfl) (h raw rfl)

theorem tidy_addCardToDeck (e : Effect)
    (h : ∀ raw ∈ e.params.text? "enhancement", Neutral (Effect.centre raw)) :
    TidyOutput e.addCardToDeck := by
  have hcard : Neutral "new_card" := neutral_fixed rfl
  have hseed := neutral_seed e "add_card"
  have hfront := neutral_cardFront ((e.params.text? "suit").bind Suit.parse?)
    ((e.params.text? "rank").bind Rank.parse?) hseed
  have hcentre := neutral_newCentre _ h
  have henhance : ∀ call ∈ (if e.params.text? "enhancement" = some "random" then
      [Effect.setEnhancement "new_card" "random" (e.seed "add_card")] else []), Neutral call := by
    split
    · exact neutral_texts [[.hole _ (neutral_randomEnhancement hcard hseed)]] rfl
    · simp
  have hseal : ∀ call ∈ ((e.params.text? "seal").filter (· ≠ "none")).toList.map (fun raw =>
      Effect.setSeal "new_card" raw (e.seed "add_card")), Neutral call := by
    intro call hcall
    obtain ⟨raw, -, rfl⟩ := List.mem_map.mp hcall
    exact neutral_setSeal hcard raw hseed
  have hedition : ∀ call ∈ (e.setEdition? "new_card" "edition").toList, Neutral call := by
    simpa using neutral_setEdition e hcard "edition"
  have hlimit : Neutral "G.deck.config.card_limit = G.deck.config.card_limit + 1" :=
    neutral_fixed rfl
  have hshow : Neutral (unlines ["new_card:start_materialize()", "G.play:emplace(new_card)"]) :=
    neutral_unlines (neutral_texts [[.fixed _], [.fixed _]] rfl)
  refine tidy_bare (neutral_unlines ?_) (neutral_some (neutral_fixed rfl)) (neutral_fixed rfl) rfl rfl
  refine List.forall_mem_append.mpr ⟨List.forall_mem_append.mpr ⟨List.forall_mem_append.mpr
    ⟨List.forall_mem_append.mpr ⟨?_, henhance⟩, hseal⟩, hedition⟩, ?_⟩
  · exact neutral_texts [[.fixed _, .hole _ hfront], [.fixed _, .hole _ hcentre, .fixed _]] rfl
  · exact neutral_texts [[.hole _ (neutral_event hshow)], [.hole _ (neutral_event hlimit)],
      [.fixed _], [.fixed _]] rfl

theorem tidy_copied : TidyOutput Effect.copiedOutput := by
  have hshow : Neutral "copied_card:start_materialize()" := neutral_fixed rfl
  have htriggered : Neutral Effect.triggered := neutral_fixed rfl
  exact tidy_bare (neutral_unlines (neutral_texts [[.fixed _],
    [.fixed _, .hole _ htriggered, .fixed _], [.fixed _], [.fixed _], [.fixed _], [.fixed _],
    [.fixed _], [.hole _ (neutral_event hshow)]] rfl)) (neutral_some (neutral_fixed rfl))
    (neutral_fixed rfl) rfl rfl

theorem tidy_destroySelf : TidyOutput Effect.destroySelf := by
  have hdissolve : Neutral "card:start_dissolve(\x7b G.C.RED \x7d, nil, 1.6)" := neutral_fixed rfl
  exact tidy_bare (neutral_unlines (neutral_texts [[.fixed _],
    [.hole _ (neutral_event hdissolve)]] rfl)) (neutral_some (neutral_fixed rfl))
    (neutral_fixed rfl) rfl rfl

theorem tidy_destroyed {body : Body} (h : NeutralBody body) :
    TidyOutput (Effect.destroyedOutput body) :=
  tidy_bare h (neutral_some (neutral_fixed rfl)) (neutral_fixed rfl) rfl rfl

theorem neutral_choice (trait : Effect.BaseTrait) (raw : String) {seed : String}
    (hseed : Neutral seed) : ∀ choice ∈ trait.choice? raw seed, Neutral choice := by
  intro choice hchoice
  unfold Effect.BaseTrait.choice? at hchoice
  split at hchoice
  · cases hchoice
    exact neutral_randomName _ hseed
  · obtain ⟨name, -, rfl⟩ := Option.map_eq_some_iff.mp hchoice
    exact neutral_quote _

theorem neutral_choiceD (authored : Option String) {choice? : String → Option String}
    (h : ∀ raw, ∀ choice ∈ choice? raw, Neutral choice) :
    Neutral ((authored.bind choice?).getD "nil") := by
  cases hchoice : authored.bind choice? with
  | none => exact neutral_fixed rfl
  | some choice =>
    obtain ⟨raw, -, hraw⟩ := Option.bind_eq_some_iff.mp hchoice
    exact h raw choice hraw

theorem neutral_editCode (e : Effect)
    (h : ∀ raw ∈ e.params.text? "new_enhancement", Neutral (Effect.centre raw)) :
    ∀ statement ∈ e.editCode, Neutral statement := by
  have hcard : Neutral Effect.triggered := neutral_fixed rfl
  have hseed := neutral_seed e "edit_card"
  have hsuit := neutral_choiceD (e.params.text? "new_suit")
    (fun raw => neutral_choice .suit raw hseed)
  have hrank := neutral_choiceD (e.params.text? "new_rank")
    (fun raw => neutral_choice .rank raw hseed)
  refine List.forall_mem_append.mpr ⟨List.forall_mem_append.mpr ⟨List.forall_mem_append.mpr
    ⟨?_, ?_⟩, ?_⟩, ?_⟩
  · split
    · exact neutral_texts [[.fixed _, .hole _ hcard, .fixed _, .hole _ hsuit, .fixed _,
        .hole _ hrank, .fixed _]] rfl
    · simp
  · intro call hcall
    obtain ⟨raw, hraw, rfl⟩ := List.mem_map.mp hcall
    exact neutral_setEnhancement hcard hseed (h raw (Option.mem_toList.mp hraw))
  · intro call hcall
    obtain ⟨raw, -, rfl⟩ := List.mem_map.mp hcall
    exact neutral_setSeal hcard raw hseed
  · split
    · exact neutral_texts [[.hole _ hcard, .fixed _]] rfl
    · simpa using neutral_setEdition e hcard "new_edition"

theorem tidy_edited {code : List String} (h : ∀ statement ∈ code, Neutral statement) :
    TidyOutput (Effect.editedOutput code) :=
  tidy_bare (neutral_unlines h) (neutral_some (neutral_fixed rfl)) (neutral_fixed rfl) rfl rfl

theorem neutral_convertCode (e : Effect) (t : Trigger) {arguments : String}
    (h : Neutral arguments) : NeutralBody (e.convertCode t arguments) := by
  have harea : Neutral ((CardTest.cardsInScope? e.params t).getD "G.hand.cards") := by
    cases harea : CardTest.cardsInScope? e.params t with
    | none => exact neutral_fixed rfl
    | some area => exact neutral_cardsInScope e.params t area harea
  exact neutral_unlines (neutral_texts [[.fixed _, .hole _ harea, .fixed _],
    [.fixed _, .hole _ h, .fixed _], [.fixed _]] rfl)

structure TidyTrait (trait : Effect.BaseTrait) : Prop where
  stem : Plain trait.stem
  arguments : ∀ value, Neutral value → Neutral (trait.arguments value)

theorem tidy_trait {kind : EffectKind} {trait : Effect.BaseTrait}
    (h : Effect.BaseTrait.ofKind? kind = some trait) : TidyTrait trait := by
  cases kind <;> cases h
  case convertCardsSuit => exact ⟨plain_fixed (by decide), fun _ hvalue => hvalue⟩
  case convertCardsRank =>
    exact ⟨plain_fixed (by decide),
      fun _ hvalue => neutral_template [.fixed _, .hole _ hvalue] rfl⟩

theorem TidyTrait.converted {trait : Effect.BaseTrait} (h : TidyTrait trait) (e : Effect) (t : Trigger)
    {value : String} (hvalue : Neutral value) {hoisted : List String}
    (hhoisted : ∀ statement ∈ hoisted, Neutral statement) :
    TidyOutput (e.convertedOutput t trait value hoisted) :=
  ⟨neutral_convertCode e t (h.arguments value hvalue), neutral_some (neutral_quote _),
    neutral_fixed rfl, hhoisted, by simp [Effect.convertedOutput]⟩

theorem TidyTrait.drawn {trait : Effect.BaseTrait} (h : TidyTrait trait) (e : Effect) (t : Trigger) :
    Gives (e.drawConversion t trait) TidyOutput := by
  refine (gives_fresh h.stem).bind fun chosen hchosen => gives_pure ?_
  have hchoice := neutral_randomName trait.names (neutral_seed e trait.seed)
  exact h.converted e t hchosen.neutral
    (neutral_texts [[.fixed _, .word _ hchosen, .fixed _, .hole _ hchoice]] rfl)

theorem neutral_bonusColour (field : String) : Neutral (Effect.bonusColour field) := by
  unfold Effect.bonusColour
  exact neutral_ite (neutral_fixed rfl) (neutral_ite (neutral_fixed rfl) (neutral_fixed rfl))

theorem tidy_bonus {field v : String} (hfield : Plain field) (hv : Neutral v) :
    TidyOutput (Effect.bonusOutput field v) := by
  have htarget : Neutral (Effect.triggered ++ ".ability." ++ field) :=
    neutral_template [.fixed _, .fixed _, .word _ hfield] rfl
  exact tidy_bare (neutral_template [.hole _ htarget, .fixed _, .hole _ htarget, .fixed _,
    .hole _ (neutral_parenthesised hv)] rfl) (neutral_some (neutral_fixed rfl))
    (neutral_bonusColour field) rfl rfl

end JokerRules.Brackets
