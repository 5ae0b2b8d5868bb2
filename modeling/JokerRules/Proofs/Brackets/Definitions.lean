import JokerRules.Proofs.Brackets.Overrides

/-! Storage and whole definitions. If the enhancements that its rules give are neutral, the source
of an item is. -/

namespace JokerRules.Brackets

open Text

theorem plain_authoredSlots (item : Item) :
    ∀ slot ∈ Storage.authoredSlots item, Plain slot.name := by
  have hfold : ∀ (vs : List UserVariable) (slots : List Slot),
      (∀ slot ∈ slots, Plain slot.name) →
      ∀ slot ∈ vs.foldl Storage.addVariable slots, Plain slot.name := by
    intro vs
    induction vs with
    | nil => exact fun _ h => h
    | cons v vs ih =>
      intro slots hslots
      rw [List.foldl_cons]
      refine ih (Storage.addVariable slots v) ?_
      simp only [Storage.addVariable]
      split
      · exact hslots
      · exact List.forall_mem_append.mpr
          ⟨hslots, List.forall_mem_singleton.mpr (plain_identifier v.name)⟩
  exact hfold _ [] (by simp)

theorem plain_slots (item : Item) {d : Draft} (h : TidyDraft d) :
    ∀ slot ∈ Storage.slots (Storage.authoredSlots item) d, Plain slot.name := by
  intro slot hslot
  rcases mem_foldl_addSlot hslot with hslot | hslot
  · rcases List.mem_append.mp hslot with hslot | hslot
    · exact h.passive slot (List.mem_filter.mp hslot).1
    · exact plain_authoredSlots item slot hslot
  · exact h.derived slot hslot

theorem neutral_declaration {slot : Slot} (h : Plain slot.name) : Neutral slot.declaration :=
  neutral_template [.word _ h, .fixed _, .hole _ (neutral_literal slot.initial)] rfl

/-- The declaration of the pair that the game makes of odds. -/
theorem neutral_oddsPair {numerator denominator n read owner : String} (hn : Neutral n)
    (hnumerator : Plain numerator) (hdenominator : Plain denominator) (hread : Neutral read)
    (howner : Neutral owner) :
    Neutral (s!"local {numerator}, {denominator} = " ++
      s!"SMODS.get_probability_vars(card, {n}, {read}, {owner})") := by
  have hnames : Neutral s!"local {numerator}, {denominator} = " :=
    neutral_template
      [.fixed _, .word _ hnumerator, .fixed _, .word _ hdenominator, .fixed _] rfl
  have hcall : Neutral s!"SMODS.get_probability_vars(card, {n}, {read}, {owner})" :=
    neutral_template
      [.fixed _, .hole _ hn, .fixed _, .hole _ hread, .fixed _, .hole _ howner, .fixed _] rfl
  exact hnames.append hcall

theorem neutral_listing (d : Draft) {slot : Slot} (h : Plain slot.name) :
    (∀ line ∈ (Storage.listing d slot).1, Neutral line) ∧
      ∀ var ∈ (Storage.listing d slot).2, Neutral var := by
  have hread := (plain_read h).neutral
  unfold Storage.listing
  split
  · next i odds _ _ =>
    have hnumerator : Plain (Names.nth "numerator" (i + 1)) :=
      plain_nth (plain_fixed (by decide)) _
    have hdenominator : Plain (Names.nth "denominator" (i + 1)) :=
      plain_nth (plain_fixed (by decide)) _
    refine ⟨List.forall_mem_singleton.mpr ?_, List.forall_mem_cons.mpr
      ⟨hnumerator.neutral, List.forall_mem_singleton.mpr hdenominator.neutral⟩⟩
    exact neutral_oddsPair (plain_toString_nat _).neutral hnumerator hdenominator hread
      (neutral_singleQuoted _)
  · exact ⟨by simp, List.forall_mem_singleton.mpr hread⟩

theorem neutral_listingFunction {slots : List Slot} (h : ∀ slot ∈ slots, Plain slot.name)
    (d : Draft) : Neutral (Storage.listingFunction slots d) := by
  have hlocals : ∀ line ∈ slots.flatMap fun s => (Storage.listing d s).1, Neutral line := by
    intro line hline
    obtain ⟨slot, hslot, hline⟩ := List.mem_flatMap.mp hline
    exact (neutral_listing d (h slot hslot)).1 line hline
  have hvars : ∀ var ∈ slots.flatMap fun s => (Storage.listing d s).2, Neutral var := by
    intro var hvar
    obtain ⟨slot, hslot, hvar⟩ := List.mem_flatMap.mp hvar
    exact (neutral_listing d (h slot hslot)).2 var hvar
  have hcomma : Neutral ", " := neutral_fixed rfl
  have hresult : Neutral (if (slots.flatMap fun s => (Storage.listing d s).2).isEmpty then
      "return \x7b vars = \x7b\x7d \x7d" else "return \x7b vars = \x7b " ++
      ", ".intercalate (slots.flatMap fun s => (Storage.listing d s).2) ++ " \x7d \x7d") :=
    neutral_ite (neutral_fixed rfl) (neutral_template
      [.fixed _, .hole _ (neutral_intercalate hcomma hvars), .fixed _] rfl)
  have hbody := (neutral_unlines (List.forall_mem_append.mpr
    ⟨hlocals, List.forall_mem_singleton.mpr hresult⟩)).indent 1
  exact neutral_unlines (neutral_texts [[.fixed _], [.hole _ hbody], [.fixed _]] rfl)

theorem neutral_flagLiteral (b : Bool) : Neutral (Definition.flagLiteral b) :=
  neutral_ite (neutral_fixed rfl) (neutral_fixed rfl)

theorem neutral_textTable (text : String) (width : Nat) :
    Neutral (Definition.textTable text width) := by
  refine neutral_table fun line hline => ?_
  obtain ⟨words, -, rfl⟩ := List.mem_map.mp hline
  exact neutral_singleQuoted words

theorem neutral_textEntries (item : Item) (width : Nat) :
    Neutral (Definition.texts item width) := by
  refine neutral_table (List.forall_mem_append.mpr ⟨?_, fun entry hentry => ?_⟩)
  · exact neutral_texts [[.fixed _, .hole _ (neutral_singleQuoted _)],
      [.fixed _, .hole _ (neutral_textTable _ _)]] rfl
  · obtain ⟨unlock, -, rfl⟩ := List.mem_map.mp hentry
    exact neutral_template [.fixed _, .hole _ (neutral_textTable _ _)] rfl

theorem neutral_atlasPlace (p : AtlasPlace) : Neutral p.literal :=
  neutral_template [.fixed _, .word _ (plain_toString_nat p.x), .fixed _,
    .word _ (plain_toString_nat p.y), .fixed _] rfl

theorem neutral_deckEntry {name : String} (hname : Neutral name) {statements : List String}
    (h : ∀ statement ∈ statements, Neutral statement) :
    ∀ entry ∈ Definition.deckEntry name statements, Neutral entry := by
  have hfunction : Neutral (Definition.deckFunction statements) :=
    neutral_unlines (neutral_texts [[.fixed _], [.hole _ ((neutral_unlines h).indent 1)],
      [.fixed _]] rfl)
  unfold Definition.deckEntry
  split
  · simp
  · exact neutral_texts [[.hole _ hname, .fixed _, .hole _ hfunction]] rfl

theorem neutral_rarity (r : Rarity) : Neutral r.literal := by
  cases r with
  | custom key => exact neutral_quote key
  | _ => exact neutral_fixed rfl

theorem neutral_storageTable {slots : List Slot} (h : ∀ slot ∈ slots, Plain slot.name) :
    Neutral (table ["extra = " ++ table (slots.map (·.declaration))]) := by
  have hslots : Neutral (table (slots.map (·.declaration))) := by
    refine neutral_table fun line hline => ?_
    obtain ⟨slot, hslot, rfl⟩ := List.mem_map.mp hline
    exact neutral_declaration (h slot hslot)
  exact neutral_table (neutral_texts [[.fixed _, .hole _ hslots]] rfl)

theorem neutral_entries (item : Item) (cell : AtlasCell) (settings : ModSettings)
    {slots : List Slot} (hslots : ∀ slot ∈ slots, Plain slot.name) (d : Draft)
    {calculate : Option String} (hcalculate : ∀ code ∈ calculate, Neutral code)
    {passive : DeckCode} (hpassive : TidyDeck passive) :
    ∀ entry ∈ Definition.entries item cell settings slots d calculate passive, Neutral entry := by
  have hadd : Neutral "add_to_deck" := neutral_fixed rfl
  have hremove : Neutral "remove_from_deck" := neutral_fixed rfl
  refine List.forall_mem_append.mpr ⟨List.forall_mem_append.mpr ⟨List.forall_mem_append.mpr
    ⟨List.forall_mem_append.mpr ⟨List.forall_mem_append.mpr ⟨?_, ?_⟩, ?_⟩, ?_⟩,
    neutral_deckEntry hadd hpassive.addToDeck⟩,
    neutral_deckEntry hremove hpassive.removeFromDeck⟩
  · exact neutral_texts [[.fixed _, .hole _ (neutral_quote _)],
      [.fixed _, .hole _ (neutral_storageTable hslots)],
      [.fixed _, .hole _ (neutral_textEntries item settings.wrapWidth)],
      [.fixed _, .hole _ (neutral_atlasPlace cell.pos)]] rfl
  · intro entry hentry
    obtain ⟨pos, -, rfl⟩ := List.mem_map.mp hentry
    exact neutral_template [.fixed _, .hole _ (neutral_atlasPlace pos)] rfl
  · exact neutral_texts [[.fixed _, .word _ (plain_toString_nat _)],
      [.fixed _, .hole _ (neutral_rarity item.rarity)],
      [.fixed _, .hole _ (neutral_flagLiteral item.blueprintCompat)],
      [.fixed _, .hole _ (neutral_flagLiteral item.eternalCompat)],
      [.fixed _, .hole _ (neutral_flagLiteral item.perishableCompat)],
      [.fixed _, .hole _ (neutral_flagLiteral item.unlocked)],
      [.fixed _, .hole _ (neutral_flagLiteral item.discovered)],
      [.fixed _, .hole _ (neutral_singleQuoted settings.atlasKey)],
      [.fixed _, .hole _ (neutral_listingFunction hslots d)]] rfl
  · intro entry hentry
    obtain ⟨code, hcode, rfl⟩ := List.mem_map.mp hentry
    exact neutral_template [.fixed _, .hole _ (hcalculate code (Option.mem_toList.mp hcode))] rfl

structure TidyDefinition (d : Definition) : Prop where
  source : Neutral d.source
  requests : ∀ r ∈ d.requests, NeutralRequest r

theorem keeps_compileRules (item : Item) (h : NeutralRules item.rules) :
    Keeps (Definition.compileRules item Registry.builtin) fun result =>
      TidyDeck result.1 ∧ ∀ code ∈ result.2, Neutral code :=
  (keeps_deck item.rules).bind fun _ hdeck =>
    (keeps_calculate h).bind fun _ hcalculate => keeps_pure ⟨hdeck, hcalculate⟩

theorem tidy_definition {item : Item} {cell : AtlasCell} {settings : ModSettings}
    {definition : Definition} (hregistry : settings.registry = Registry.builtin)
    (hrules : NeutralRules item.rules)
    (h : Definition.compile item cell settings = .ok definition) : TidyDefinition definition := by
  obtain ⟨-, -, -, rfl⟩ := Definition.compile_eq_ok_iff.mp h
  have hresult := keeps_compileRules item hrules { owner := settings.itemKey item.slug }
    ⟨by simp, by simp, by simp⟩
  rw [← hregistry] at hresult
  obtain ⟨⟨hdeck, hcalculate⟩, hd⟩ := hresult
  have hentries := neutral_entries item cell settings (plain_slots item hd)
    (Definition.ruleDraft item settings) hcalculate hdeck
  exact ⟨(neutral_fixed rfl).append (neutral_table hentries), hdeck.requests⟩

theorem tidy_definitions {settings : ModSettings}
    (hregistry : settings.registry = Registry.builtin) {items : List Item} {atlas rest : Atlas}
    {ds : List Definition} (hrules : ∀ item ∈ items, NeutralRules item.rules)
    (h : Mod.definitions settings atlas items = .ok (ds, rest)) : ∀ d ∈ ds, TidyDefinition d := by
  induction items generalizing atlas ds rest with
  | nil =>
    cases h
    simp
  | cons item items ih =>
    obtain ⟨hitem, hitems⟩ := List.forall_mem_cons.mp hrules
    simp only [Mod.definitions] at h
    split at h
    · simp at h
    · next definition hdefinition =>
      split at h
      · simp at h
      · next ds' rest' hds =>
        cases h
        exact List.forall_mem_cons.mpr
          ⟨tidy_definition hregistry hitem hdefinition, ih hitems hds⟩

theorem neutral_source {items : List Item} {settings : ModSettings} {m : Mod}
    (hregistry : settings.registry = Registry.builtin)
    (hrules : ∀ item ∈ items, NeutralRules item.rules) (h : Mod.compile items settings = .ok m) :
    Neutral m.source := by
  unfold Mod.compile at h
  split at h
  · simp at h
  split at h
  · simp at h
  · next ds rest hds =>
    cases h
    have hdefinitions := tidy_definitions hregistry hrules hds
    have hoverrides := neutral_overrides fun r hr => by
      obtain ⟨d, hd, hr⟩ := List.mem_flatMap.mp hr
      exact (hdefinitions d hd).requests r hr
    have hsources : ∀ text ∈ ds.map (·.source), Neutral text := by
      intro text htext
      obtain ⟨d, hd, rfl⟩ := List.mem_map.mp htext
      exact (hdefinitions d hd).source
    have hsep : Neutral "\n\n" := neutral_fixed rfl
    exact (neutral_intercalate hsep (List.forall_mem_append.mpr ⟨hoverrides, hsources⟩)).append
      (neutral_fixed rfl)

end JokerRules.Brackets
