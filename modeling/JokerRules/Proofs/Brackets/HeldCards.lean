import JokerRules.Proofs.Brackets.Outputs

/-! Effects that create, copy and destroy jokers and consumables. -/

namespace JokerRules.Brackets

open Text

theorem neutral_setEdition (e : Effect) {card : String} (hcard : Neutral card) (key : String) :
    ∀ call ∈ e.setEdition? card key, Neutral call := by
  intro call hcall
  obtain ⟨raw, -, hcall⟩ := Option.bind_eq_some_iff.mp hcall
  dsimp only at hcall
  split at hcall
  · simp at hcall
  split at hcall
  · cases hcall
    exact neutral_template
      [.hole _ hcard, .fixed _, .word _ (plain_identifier e.id), .fixed _] rfl
  · cases hcall
    exact neutral_template [.hole _ hcard, .fixed _, .hole _ (neutral_quote _), .fixed _] rfl

structure PlainHolding (h : Holding) : Prop where
  area : Plain h.area
  buffer : Plain h.buffer

theorem plain_jokers : PlainHolding Holding.jokers :=
  ⟨plain_fixed (by decide), plain_fixed (by decide)⟩

theorem plain_consumables : PlainHolding Holding.consumables :=
  ⟨plain_fixed (by decide), plain_fixed (by decide)⟩

namespace PlainHolding

variable {h : Holding}

theorem room (hh : PlainHolding h) : Neutral h.room :=
  neutral_template [.fixed _, .word _ hh.area, .fixed _, .word _ hh.buffer, .fixed _,
    .word _ hh.area, .fixed _] rfl

theorem reserve (hh : PlainHolding h) : Neutral h.reserve :=
  neutral_template [.fixed _, .word _ hh.buffer, .fixed _, .word _ hh.buffer, .fixed _] rfl

theorem release (hh : PlainHolding h) : Neutral h.release :=
  neutral_template [.word _ hh.buffer, .fixed _] rfl

theorem spawn (hh : PlainHolding h) {created code : String} (hcreated : Plain created)
    (hcode : Neutral code) : Neutral (h.spawn created code) :=
  neutral_unlines (neutral_texts [[.fixed _, .word _ hcreated, .fixed _],
    [.fixed _, .hole _ hh.room, .fixed _], [.fixed _, .word _ hcreated, .fixed _],
    [.hole _ hh.reserve], [.hole _ ((neutral_event hcode).indent 1)], [.fixed _]] rfl)

theorem copy (hh : PlainHolding h) {target condition code : String} (htarget : Plain target)
    (hcondition : Neutral condition) (hcode : Neutral code) :
    Neutral (h.copy target condition code) :=
  neutral_unlines (neutral_texts
    [[.fixed _, .word _ htarget, .fixed _, .hole _ hcondition, .fixed _], [.hole _ hh.reserve],
      [.hole _ ((neutral_event hcode).indent 1)], [.fixed _],
      [.fixed _, .word _ htarget, .fixed _], [.fixed _]] rfl)

end PlainHolding

theorem neutral_dissolve {target condition : String} (htarget : Plain target)
    (hcondition : Neutral condition) : Neutral (dissolve target condition) := by
  have hcode : Neutral (target ++ ":start_dissolve(\x7b G.C.RED \x7d, nil, 1.6)") :=
    neutral_template [.word _ htarget, .fixed _] rfl
  exact neutral_unlines (neutral_texts [[.fixed _, .hole _ hcondition, .fixed _],
    [.fixed _, .word _ htarget, .fixed _], [.hole _ ((neutral_event hcode).indent 1)],
    [.fixed _]] rfl)

theorem neutral_chooseFrom {pool target element area test seed : String} (hpool : Plain pool)
    (htarget : Plain target) (helement : Neutral element) (harea : Neutral area)
    (htest : Neutral test) (hseed : Neutral seed) :
    Neutral (chooseFrom pool target element area test seed) := by
  have hchoice := neutral_randomElement hpool.neutral hseed
  exact neutral_unlines (neutral_texts [[.fixed _, .word _ hpool, .fixed _],
    [.fixed _, .hole _ helement, .fixed _, .hole _ harea, .fixed _],
    [.fixed _, .hole _ htest, .fixed _],
    [.fixed _, .word _ hpool, .fixed _, .word _ hpool, .fixed _, .hole _ helement],
    [.fixed _], [.fixed _],
    [.fixed _, .word _ htarget, .fixed _, .word _ hpool, .fixed _, .hole _ hchoice,
      .fixed _]] rfl)

theorem neutral_chooseNeighbour {target offset : String} (htarget : Plain target)
    (hoffset : Plain offset) : Neutral (chooseNeighbour target offset) :=
  neutral_unlines (neutral_texts [[.fixed _, .word _ htarget, .fixed _], [.fixed _], [.fixed _],
    [.fixed _, .word _ htarget, .fixed _, .word _ hoffset, .fixed _], [.fixed _], [.fixed _]] rfl)

/-- A local variable and the code that binds it. -/
def TidyChoice (choice : String × String) : Prop :=
  Plain choice.1 ∧ Neutral choice.2

theorem tidy_chooseJoker (e : Effect) {stem : String} (hstem : Plain stem)
    (allowEternal : Bool) : Gives (e.chooseJoker stem allowEternal) TidyChoice := by
  refine (gives_fresh hstem).bind fun target htarget => ?_
  dsimp only
  split
  · exact gives_pure ⟨htarget, neutral_chooseNeighbour htarget (plain_fixed (by decide))⟩
  split
  · exact gives_pure ⟨htarget, neutral_chooseNeighbour htarget (plain_fixed (by decide))⟩
  split
  · exact gives_pure ⟨htarget, neutral_template
      [.fixed _, .word _ htarget, .fixed _, .hole _ (neutral_quote _), .fixed _] rfl⟩
  · refine (gives_fresh (plain_fixed (by decide))).bind fun pool hpool => ?_
    have heternal : Neutral (if allowEternal = true then ""
        else " and not other_joker.ability.eternal") :=
      neutral_ite (neutral_fixed rfl) (neutral_fixed rfl)
    exact gives_pure ⟨htarget, neutral_chooseFrom hpool htarget (neutral_fixed rfl)
      (neutral_fixed rfl) (neutral_template [.fixed _, .hole _ heternal, .fixed _] rfl)
      (neutral_seed e stem)⟩

theorem plain_familyOf {raw : String} {family : String × String}
    (h : Effect.familyOf? raw = some family) : Plain family.1 ∧ Plain family.2 := by
  simp only [Effect.familyOf?] at h
  split at h
  · cases h
    exact ⟨plain_fixed (by decide), plain_fixed (by decide)⟩
  split at h
  · cases h
    exact ⟨plain_fixed (by decide), plain_fixed (by decide)⟩
  split at h
  · cases h
    exact ⟨plain_fixed (by decide), plain_fixed (by decide)⟩
  · simp at h

theorem neutral_familyTest (raw : String) : Neutral (match Effect.familyOf? raw with
    | some (set, _) => s!" and held.ability.set == '{set}'"
    | none => "") := by
  split
  · next set _ hfamily =>
    exact neutral_template [.fixed _, .word _ (plain_familyOf hfamily).1, .fixed _] rfl
  · exact neutral_fixed rfl

theorem tidy_chooseConsumable (e : Effect) {stem : String} (hstem : Plain stem) :
    Gives (e.chooseConsumable stem) TidyChoice := by
  refine (gives_fresh (plain_fixed (by decide))).bind fun pool hpool => ?_
  refine (gives_fresh hstem).bind fun target htarget => ?_
  have hset := neutral_familyTest (e.params.textOr "consumable_type" "random")
  exact gives_pure ⟨htarget, neutral_chooseFrom hpool htarget (neutral_fixed rfl)
    (neutral_fixed rfl) (neutral_template [.fixed _, .hole _ hset] rfl) (neutral_seed e stem)⟩

theorem neutral_rarityLimit (raw : String) :
    ∀ limit ∈ Effect.rarityLimit? raw, Neutral limit := by
  intro limit hlimit
  simp only [Effect.rarityLimit?] at hlimit
  split at hlimit
  · simp at hlimit
  split at hlimit
  · cases hlimit
    exact neutral_fixed rfl
  split at hlimit
  · cases hlimit
    exact neutral_fixed rfl
  split at hlimit
  · cases hlimit
    exact neutral_fixed rfl
  split at hlimit
  · cases hlimit
    exact neutral_fixed rfl
  · cases hlimit
    exact neutral_template [.fixed _, .hole _ (neutral_singleQuoted _)] rfl

theorem neutral_addCard {entries : List String} (h : ∀ entry ∈ entries, Neutral entry) :
    Neutral (Effect.addCard entries) := by
  have hcomma : Neutral ", " := neutral_fixed rfl
  have hentries := neutral_intercalate hcomma h
  exact neutral_template [.fixed _, .hole _ hentries, .fixed _] rfl

theorem neutral_editionLines (e : Effect) :
    ∀ line ∈ (match e.setEdition? "joker_card" "edition" with
      | some call => [unlines ["if joker_card then", "    " ++ call, "end"]]
      | none => []), Neutral line := by
  split
  · next call hcall =>
    have hcard : Neutral "joker_card" := neutral_fixed rfl
    exact List.forall_mem_singleton.mpr (neutral_unlines (neutral_texts [[.fixed _],
      [.fixed _, .hole _ (neutral_setEdition e hcard _ call hcall)], [.fixed _]] rfl))
  · simp

theorem tidy_createJoker (e : Effect) : Gives e.createJoker TidyOutput := by
  have hchoice : ∀ entry ∈ (if e.params.textOr "joker_key" "random" = "random" then
      (Effect.rarityLimit? (e.params.textOr "rarity" "random")).toList
      else ["key = " ++ singleQuoted (familyKey "j_" (e.params.textOr "joker_key" "random"))]),
      Neutral entry := by
    split
    · simpa using neutral_rarityLimit (e.params.textOr "rarity" "random")
    · exact neutral_texts [[.fixed _, .hole _ (neutral_singleQuoted _)]] rfl
  have hedition := neutral_editionLines e
  have hset : Neutral "set = 'Joker'" := neutral_fixed rfl
  have hadd := neutral_addCard (List.forall_mem_cons.mpr ⟨hset, hchoice⟩)
  refine (gives_fresh (plain_fixed (by decide))).bind fun created hcreated => ?_
  refine gives_pure ⟨trivial, neutral_some (neutral_template [.word _ hcreated, .fixed _] rfl),
    neutral_fixed rfl, List.forall_mem_singleton.mpr (plain_jokers.spawn hcreated
      (neutral_unlines ?_)), by simp⟩
  refine List.forall_mem_append.mpr ⟨List.forall_mem_append.mpr ⟨?_, hedition⟩, ?_⟩
  · exact neutral_texts [[.fixed _, .hole _ hadd]] rfl
  · exact neutral_texts [[.hole _ plain_jokers.release]] rfl

theorem tidy_copyJoker (e : Effect) : Gives e.copyJoker TidyOutput := by
  have hcopied : Neutral "copied_joker" := neutral_fixed rfl
  have hedition : ∀ call ∈ (e.setEdition? "copied_joker" "edition").toList, Neutral call := by
    simpa using neutral_setEdition e hcopied "edition"
  refine (tidy_chooseJoker e (plain_fixed (by decide)) true).bind fun choice hchoice => ?_
  obtain ⟨target, pick⟩ := choice
  obtain ⟨htarget, hpick⟩ := hchoice
  refine gives_pure ⟨trivial, neutral_some (neutral_template [.word _ htarget, .fixed _] rfl),
    neutral_fixed rfl, List.forall_mem_cons.mpr ⟨hpick, List.forall_mem_singleton.mpr
      (plain_jokers.copy htarget plain_jokers.room (neutral_unlines ?_))⟩, by simp⟩
  refine List.forall_mem_append.mpr ⟨List.forall_mem_append.mpr ⟨?_, hedition⟩, ?_⟩
  · rw [List.forall_mem_singleton]
    simp only [← String.append_assoc]
    exact neutral_template [.fixed _, .word _ htarget, .fixed _, .word _ htarget, .fixed _,
      .word _ htarget, .fixed _] rfl
  · exact neutral_texts [[.fixed _], [.fixed _], [.hole _ plain_jokers.release]] rfl

theorem tidy_createConsumable (e : Effect) : Gives e.createConsumable TidyOutput := by
  have hmessage : ∀ {created message : String}, Plain created → Neutral message →
      Neutral s!"{created} and {message} or nil" := fun hcreated hmessage =>
    neutral_template [.word _ hcreated, .fixed _, .hole _ hmessage, .fixed _] rfl
  have hspawn : ∀ {created : String} {entries : List String}, Plain created →
      (∀ entry ∈ entries, Neutral entry) → Neutral (Holding.consumables.spawn created
        (unlines [Effect.addCard entries, Holding.consumables.release])) :=
    fun hcreated hentries => plain_consumables.spawn hcreated (neutral_unlines (neutral_texts
      [[.hole _ (neutral_addCard hentries)], [.hole _ plain_consumables.release]] rfl))
  refine (gives_fresh (plain_fixed (by decide))).bind fun created hcreated => ?_
  split
  · next set message hfamily =>
    obtain ⟨hset, hname⟩ := plain_familyOf hfamily
    have hcolour : Neutral (Effect.familyColour set) :=
      neutral_ite (neutral_fixed rfl) (neutral_ite (neutral_fixed rfl) (neutral_fixed rfl))
    have hlocalized : Neutral s!"localize('{message}')" :=
      neutral_template [.fixed _, .word _ hname, .fixed _] rfl
    have hentry : Neutral s!"set = '{set}'" :=
      neutral_template [.fixed _, .word _ hset, .fixed _] rfl
    refine gives_pure ⟨trivial, neutral_some (hmessage hcreated hlocalized), hcolour,
      List.forall_mem_singleton.mpr (hspawn hcreated (List.forall_mem_cons.mpr ⟨hentry, ?_⟩)),
      by simp⟩
    intro entry hkey
    obtain ⟨key, -, rfl⟩ := List.mem_map.mp hkey
    exact neutral_template [.fixed _, .hole _ (neutral_singleQuoted _)] rfl
  · refine (gives_fresh (plain_fixed (by decide))).bind fun set hset => ?_
    have hchoice := neutral_randomName ["Tarot", "Planet", "Spectral"]
      (neutral_seed e "consumable_set")
    have htext : Neutral "\"+1 Consumable\"" := neutral_fixed rfl
    have hentry : Neutral ("set = " ++ set) := neutral_template [.fixed _, .word _ hset] rfl
    exact gives_pure ⟨trivial, neutral_some (hmessage hcreated htext), neutral_fixed rfl,
      neutral_texts [[.fixed _, .word _ hset, .fixed _, .hole _ hchoice],
        [.hole _ (hspawn hcreated (List.forall_mem_singleton.mpr hentry))]] rfl, by simp⟩

theorem tidy_copyConsumable (e : Effect) : Gives e.copyConsumable TidyOutput := by
  have hedition : ∀ line ∈ (if e.params.flag "negative" = true then
      ["copied_card:set_edition(\"e_negative\", true)"] else []), Neutral line := by
    split
    · exact neutral_texts [[.fixed _]] rfl
    · simp
  have halways : Neutral (if e.params.flag "negative" = true then " or true" else "") :=
    neutral_ite (neutral_fixed rfl) (neutral_fixed rfl)
  have hcondition : Neutral ("(" ++ Holding.consumables.room ++
      (if e.params.flag "negative" = true then " or true" else "") ++ ")") :=
    neutral_template [.fixed _, .hole _ plain_consumables.room, .hole _ halways, .fixed _] rfl
  refine (tidy_chooseConsumable e (plain_fixed (by decide))).bind fun choice hchoice => ?_
  obtain ⟨target, pick⟩ := choice
  obtain ⟨htarget, hpick⟩ := hchoice
  refine gives_pure ⟨trivial, neutral_some (neutral_template [.word _ htarget, .fixed _] rfl),
    neutral_fixed rfl, List.forall_mem_cons.mpr ⟨hpick, List.forall_mem_singleton.mpr
      (plain_consumables.copy htarget hcondition (neutral_unlines ?_))⟩, by simp⟩
  refine List.forall_mem_append.mpr ⟨List.forall_mem_append.mpr ⟨?_, hedition⟩, ?_⟩
  · exact neutral_texts [[.fixed _, .word _ htarget, .fixed _]] rfl
  · exact neutral_texts [[.fixed _], [.fixed _], [.hole _ plain_consumables.release]] rfl

theorem tidy_createTag (e : Effect) : Gives e.createTag TidyOutput := by
  have hbody : ∀ {tag : String}, Neutral tag → NeutralBody (.closure (event (unlines [
      s!"add_tag(Tag({tag}))", "play_sound('generic1', 0.9 + math.random() * 0.1, 0.8)",
      "play_sound('holo1', 1.2 + math.random() * 0.1, 0.4)"]))) := fun htag =>
    neutral_event (neutral_unlines (neutral_texts
      [[.fixed _, .hole _ htag, .fixed _], [.fixed _], [.fixed _]] rfl))
  unfold Effect.createTag
  dsimp only
  split
  · refine (gives_fresh (plain_fixed (by decide))).bind fun pool hpool => ?_
    refine (gives_fresh (plain_fixed (by decide))).bind fun chosen hchosen => ?_
    have hchoice := neutral_randomElement hpool.neutral (neutral_seed e "create_tag")
    exact gives_pure ⟨hbody hchosen.neutral, neutral_some (neutral_fixed rfl), neutral_fixed rfl,
      List.forall_mem_singleton.mpr (neutral_unlines (neutral_texts
        [[.fixed _, .word _ hpool, .fixed _], [.fixed _],
          [.fixed _, .word _ hpool, .fixed _, .word _ hpool, .fixed _], [.fixed _],
          [.fixed _, .word _ hchosen, .fixed _, .hole _ hchoice]] rfl)), by simp⟩
  · exact gives_pure ⟨hbody (neutral_quote _), neutral_some (neutral_fixed rfl),
      neutral_fixed rfl, by simp, by simp⟩

theorem tidy_destroyJoker (e : Effect) : Gives e.destroyJoker TidyOutput := by
  refine (tidy_chooseJoker e (plain_fixed (by decide)) false).bind fun choice hchoice => ?_
  obtain ⟨target, pick⟩ := choice
  obtain ⟨htarget, hpick⟩ := hchoice
  have hcondition : Neutral s!"{target} and not {target}.ability.eternal" :=
    neutral_template [.word _ htarget, .fixed _, .word _ htarget, .fixed _] rfl
  exact gives_pure ⟨trivial, neutral_some (neutral_template [.word _ htarget, .fixed _] rfl),
    neutral_fixed rfl, neutral_texts
      [[.hole _ hpick], [.hole _ (neutral_dissolve htarget hcondition)]] rfl, by simp⟩

theorem tidy_destroyConsumable (e : Effect) : Gives e.destroyConsumable TidyOutput := by
  refine (tidy_chooseConsumable e (plain_fixed (by decide))).bind fun choice hchoice => ?_
  obtain ⟨target, pick⟩ := choice
  obtain ⟨htarget, hpick⟩ := hchoice
  exact gives_pure ⟨trivial, neutral_some (neutral_template [.word _ htarget, .fixed _] rfl),
    neutral_fixed rfl, neutral_texts
      [[.hole _ hpick], [.hole _ (neutral_dissolve htarget htarget.neutral)]] rfl, by simp⟩

end JokerRules.Brackets
