import JokerRules.Proofs.QuietCode

/-! The code that effects put before the returned table. Unless the effect writes a variable, this
code only chooses and makes cards: it writes no slot and no captured value. -/

namespace JokerRules

open Text Statement

def QuietOutput (o : Output) : Prop :=
  ∀ text ∈ o.hoisted, Quiet text

theorem quietOutput_nil {o : Output} (h : o.hoisted = []) : QuietOutput o := by
  intro text htext
  rw [h] at htext
  exact nomatch htext

theorem quiet_setEdition (e : Effect) {card : String} (hcard : PlainName card) (key : String)
    {call : String} (h : e.setEdition? card key = some call) : QuietLine call := by
  obtain ⟨raw, -, h⟩ := Option.bind_eq_some_iff.mp h
  split at h
  · exact nomatch h
  split at h
  · obtain rfl := Option.some.inj h
    exact LinePart.quietLine [.name _ hcard, .fixed _, .hole _ (oneLine_identifier _), .fixed _] rfl
  · obtain rfl := Option.some.inj h
    exact LinePart.quietLine [.name _ hcard, .fixed _, .hole _ (oneLine_quote _), .fixed _] rfl

theorem oneLine_addCard {entries : List String} (h : ∀ entry ∈ entries, OneLine entry) :
    OneLine (Effect.addCard entries) :=
  LinePart.oneLine_template [.fixed _, .hole _ (oneLine_intercalate (by decide) h), .fixed _] rfl

theorem oneLine_rarityLimit {raw limit : String} (h : Effect.rarityLimit? raw = some limit) :
    OneLine limit := by
  simp only [Effect.rarityLimit?] at h
  split_ifs at h <;> first
    | exact Option.some.inj h ▸ by decide
    | exact Option.some.inj h ▸
        LinePart.oneLine_template [.fixed _, .hole _ (oneLine_singleQuoted _)] rfl

theorem quiet_levelUp (e : Effect) (v : String) : Gives (e.levelUp v) QuietOutput := by
  unfold Effect.levelUp
  dsimp only
  split
  · exact gives_pure (quietOutput_nil rfl)
  split
  · refine (gives_plainName (plainName_stem (by decide))).bind fun pool hpool => ?_
    refine (gives_plainName (plainName_stem (by decide))).bind fun chosen hchosen => ?_
    have hchoice := oneLine_randomElement hpool.oneLine (oneLine_seed e "level_up_hand")
    exact gives_pure (List.forall_mem_singleton.mpr (quiet_rows [
      .line [.fixed _, .name _ hpool, .fixed _], .line [.fixed _], .line [.fixed _],
      .line [.fixed _, .name _ hpool, .fixed _, .name _ hpool, .fixed _], .line [.fixed _],
      .line [.fixed _], .line [.fixed _, .name _ hchosen, .fixed _, .hole _ hchoice]] rfl))
  · exact gives_pure (quietOutput_nil rfl)

theorem quiet_editionLines (e : Effect) :
    ∀ line ∈ (match e.setEdition? "joker_card" "edition" with
      | some call => [unlines ["if joker_card then", "    " ++ call, "end"]]
      | none => []), Quiet line := by
  split
  · next call hcall =>
    have hline : QuietLine ("    " ++ call) :=
      (quiet_setEdition e (plainName_stem (by decide)) "edition" hcall).pad (by simp)
    exact List.forall_mem_singleton.mpr
      (quiet_rows [.line [.fixed _], .block _ hline.quiet, .line [.fixed _]] rfl)
  · simp

theorem quiet_createJoker (e : Effect) : Gives e.createJoker QuietOutput := by
  have hchoice : ∀ entry ∈ (if e.params.textOr "joker_key" "random" = "random" then
      (Effect.rarityLimit? (e.params.textOr "rarity" "random")).toList
      else ["key = " ++ singleQuoted (familyKey "j_" (e.params.textOr "joker_key" "random"))]),
      OneLine entry := by
    split
    · exact fun entry hentry => oneLine_rarityLimit (Option.mem_toList.mp hentry)
    · exact List.forall_mem_singleton.mpr
        (LinePart.oneLine_template [.fixed _, .hole _ (oneLine_singleQuoted _)] rfl)
  have hedition := quiet_editionLines e
  have hset : OneLine "set = 'Joker'" := by decide
  have hadd := oneLine_addCard (List.forall_mem_cons.mpr ⟨hset, hchoice⟩)
  refine (gives_plainName (plainName_stem (by decide))).bind fun created hcreated => ?_
  refine gives_pure (List.forall_mem_singleton.mpr (quiet_jokers.spawn hcreated
    (quiet_unlines (List.forall_mem_append.mpr ⟨List.forall_mem_append.mpr ⟨?_, hedition⟩, ?_⟩))))
  · exact List.forall_mem_singleton.mpr (LinePart.quietLine [.fixed _, .hole _ hadd] rfl).quiet
  · exact List.forall_mem_singleton.mpr quiet_jokers.release

theorem quiet_copyJoker (e : Effect) : Gives e.copyJoker QuietOutput := by
  refine (quiet_chooseJoker e (plainName_stem (by decide)) true).bind fun choice hchoice => ?_
  obtain ⟨target, pick⟩ := choice
  obtain ⟨htarget, hpick⟩ := hchoice
  have hedition : ∀ line ∈ (e.setEdition? "copied_joker" "edition").toList, Quiet line :=
    fun line hline => (quiet_setEdition e (plainName_stem (by decide)) "edition"
      (Option.mem_toList.mp hline)).quiet
  refine gives_pure (List.forall_mem_cons.mpr ⟨hpick, List.forall_mem_singleton.mpr
    (quiet_jokers.copy htarget quiet_jokers.room (quiet_unlines ?_))⟩)
  refine List.forall_mem_append.mpr ⟨List.forall_mem_append.mpr ⟨?_, hedition⟩, ?_⟩
  · rw [List.forall_mem_singleton]
    simp only [← String.append_assoc]
    exact (LinePart.quietLine [.fixed _, .hole _ htarget.oneLine, .fixed _, .hole _ htarget.oneLine,
      .fixed _, .hole _ htarget.oneLine, .fixed _] rfl).quiet
  · refine List.forall_mem_cons.mpr ⟨quiet_fixed (by decide), List.forall_mem_cons.mpr
      ⟨quiet_fixed (by decide), List.forall_mem_singleton.mpr quiet_jokers.release⟩⟩

theorem quiet_createConsumable (e : Effect) : Gives e.createConsumable QuietOutput := by
  have hspawn : ∀ {created : String} {entries : List String}, PlainName created →
      (∀ entry ∈ entries, OneLine entry) → Quiet (Holding.consumables.spawn created
        (unlines [Effect.addCard entries, Holding.consumables.release])) := by
    intro created entries hcreated hentries
    have hadd : QuietLine (Effect.addCard entries) :=
      LinePart.quietLine [.fixed _, .hole _ (oneLine_intercalate (by decide) hentries), .fixed _] rfl
    exact quiet_consumables.spawn hcreated
      (quiet_rows [.block _ hadd.quiet, .block _ quiet_consumables.release] rfl)
  refine (gives_plainName (plainName_stem (by decide))).bind fun created hcreated => ?_
  dsimp only
  split
  · next set message hfamily =>
    refine gives_pure (List.forall_mem_singleton.mpr (hspawn hcreated
      (List.forall_mem_cons.mpr ⟨?_, fun entry hentry => ?_⟩)))
    · exact LinePart.oneLine_template [.fixed _, .hole _ (oneLine_familyOf hfamily), .fixed _] rfl
    · obtain ⟨key, -, rfl⟩ := List.mem_map.mp hentry
      exact LinePart.oneLine_template [.fixed _, .hole _ (oneLine_singleQuoted _)] rfl
  · refine (gives_plainName (plainName_stem (by decide))).bind fun set hset => ?_
    have hchoice : OneLine (randomName ["Tarot", "Planet", "Spectral"] (e.seed "consumable_set")) :=
      oneLine_randomName (oneLine_seed e _)
    refine gives_pure (List.forall_mem_cons.mpr ⟨?_, List.forall_mem_singleton.mpr
      (hspawn hcreated (List.forall_mem_singleton.mpr ?_))⟩)
    · exact (LinePart.quietLine [.fixed _, .name _ hset, .fixed _, .hole _ hchoice] rfl).quiet
    · exact LinePart.oneLine_template [.fixed _, .hole _ hset.oneLine] rfl

theorem quiet_copyConsumable (e : Effect) : Gives e.copyConsumable QuietOutput := by
  refine (quiet_chooseConsumable e (plainName_stem (by decide))).bind fun choice hchoice => ?_
  obtain ⟨target, pick⟩ := choice
  obtain ⟨htarget, hpick⟩ := hchoice
  have hedition : ∀ line ∈ (if e.params.flag "negative" = true then
      ["copied_card:set_edition(\"e_negative\", true)"] else []), Quiet line := by
    split
    · exact List.forall_mem_singleton.mpr (quiet_fixed (by decide))
    · exact fun line hline => nomatch hline
  have halways : OneLine (if e.params.flag "negative" = true then " or true" else "") := by
    split <;> decide
  refine gives_pure (List.forall_mem_cons.mpr ⟨hpick, List.forall_mem_singleton.mpr
    (quiet_consumables.copy htarget (LinePart.oneLine_template [.fixed _,
      .hole _ quiet_consumables.room, .hole _ halways, .fixed _] ?_) (quiet_unlines ?_))⟩)
  · rfl
  refine List.forall_mem_append.mpr ⟨List.forall_mem_append.mpr ⟨?_, hedition⟩, ?_⟩
  · exact List.forall_mem_singleton.mpr
      (LinePart.quietLine [.fixed _, .hole _ htarget.oneLine, .fixed _] rfl).quiet
  · refine List.forall_mem_cons.mpr ⟨quiet_fixed (by decide), List.forall_mem_cons.mpr
      ⟨quiet_fixed (by decide), List.forall_mem_singleton.mpr quiet_consumables.release⟩⟩

theorem quiet_createTag (e : Effect) : Gives e.createTag QuietOutput := by
  unfold Effect.createTag
  dsimp only
  split
  · refine (gives_plainName (plainName_stem (by decide))).bind fun pool hpool => ?_
    refine (gives_plainName (plainName_stem (by decide))).bind fun chosen hchosen => ?_
    have hchoice := oneLine_randomElement hpool.oneLine (oneLine_seed e "create_tag")
    exact gives_pure (List.forall_mem_singleton.mpr (quiet_rows [
      .line [.fixed _, .name _ hpool, .fixed _], .line [.fixed _],
      .line [.fixed _, .name _ hpool, .fixed _, .name _ hpool, .fixed _], .line [.fixed _],
      .line [.fixed _, .name _ hchosen, .fixed _, .hole _ hchoice]] rfl))
  · exact gives_pure (quietOutput_nil rfl)

theorem quiet_destroyJoker (e : Effect) : Gives e.destroyJoker QuietOutput := by
  refine (quiet_chooseJoker e (plainName_stem (by decide)) false).bind fun choice hchoice => ?_
  obtain ⟨target, pick⟩ := choice
  obtain ⟨htarget, hpick⟩ := hchoice
  have hleads : Leads s!"{target} and not {target}.ability.eternal" :=
    ((htarget.leads.append _).append _).append _
  exact gives_pure (List.forall_mem_cons.mpr ⟨hpick, List.forall_mem_singleton.mpr
    (quiet_dissolve htarget (LinePart.oneLine_template [.hole _ htarget.oneLine, .fixed _,
      .hole _ htarget.oneLine, .fixed _] rfl) hleads)⟩)

theorem quiet_destroyConsumable (e : Effect) : Gives e.destroyConsumable QuietOutput := by
  refine (quiet_chooseConsumable e (plainName_stem (by decide))).bind fun choice hchoice => ?_
  obtain ⟨target, pick⟩ := choice
  obtain ⟨htarget, hpick⟩ := hchoice
  exact gives_pure (List.forall_mem_cons.mpr ⟨hpick, List.forall_mem_singleton.mpr
    (quiet_dissolve htarget htarget.oneLine htarget.leads)⟩)

theorem quiet_drawConversion {e : Effect} {trait : Effect.BaseTrait}
    (h : Effect.BaseTrait.ofKind? e.kind = some trait) (t : Trigger) :
    Gives (e.drawConversion t trait) QuietOutput := by
  have hstem : PlainName trait.stem := by
    cases hkind : e.kind <;> rw [hkind] at h <;> cases h <;> exact plainName_stem (by decide)
  have hchoice : OneLine (randomName trait.names (e.seed trait.seed)) :=
    oneLine_randomName (oneLine_seed e _)
  exact (gives_plainName hstem).bind fun chosen hchosen => gives_pure (List.forall_mem_singleton.mpr
    (LinePart.quietLine [.fixed _, .name _ hchosen, .fixed _, .hole _ hchoice] rfl).quiet)

/-- An effect that writes no variable has quiet code. -/
theorem quiet_plan {e : Effect} {t : Trigger} {plan : Plan Output} (h : e.plan? t = some plan)
    (hwrites : e.kind ≠ .modifyInternalVariable) : plan.Makes QuietOutput := by
  cases Effect.planned_of_plan h with
  | modifyVariable kind _ => exact absurd kind hwrites
  | levelUp => exact fun v => quiet_levelUp e v
  | createJoker => exact quiet_createJoker e
  | copyJoker => exact quiet_copyJoker e
  | createConsumable => exact quiet_createConsumable e
  | copyConsumable => exact quiet_copyConsumable e
  | createTag => exact quiet_createTag e
  | destroyJoker => exact quiet_destroyJoker e
  | destroyConsumable => exact quiet_destroyConsumable e
  | drawConversion kind => exact quiet_drawConversion kind t
  | score | retrigger | setDollars | setSellValue | drawCards | permaBonus | editBlindSize | setAnte
  | modifyProbability | changeQuantity =>
    exact fun v => gives_pure (quietOutput_nil rfl)
  | showMessage | balance | swapChipsMult | savedFromDeath | removeCard | destroyCard | destroySelf
  | addCardToDeck | copyTriggeredCard | editTriggeredCard | convertCards | disableBossBlind =>
    exact gives_pure (quietOutput_nil rfl)

end JokerRules
