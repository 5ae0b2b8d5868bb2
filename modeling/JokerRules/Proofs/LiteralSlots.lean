import JokerRules.Proofs.ItemReadings

/-! Which literals have slots of their own. A literal can lose its slot to the offset of a reading,
to a variable that is written, or to another amount if its stem is an authored bonus. The main
statement says that these are the only ways. -/

namespace JokerRules.Literals

open Definition Step Storage

/-- The value that is kept under a name. -/
def kept (slots : List Slot) (name : String) : Option Value :=
  (slots.find? (·.name == name)).map (·.initial)

/-- A bonus whose authored name ends in a digit. -/
def Numbered (l : Reading) : Prop :=
  l.effect.kind = .permaBonus ∧ ¬Names.Unnumbered l.stem

/-- A bonus whose authored name is that of a bound. -/
def BoundLike (l : Reading) : Prop :=
  l.effect.kind = .permaBonus ∧ Names.EndsInBound l.stem

/-- No variable that an effect writes has the slot of a literal. -/
def Unwritten (item : Item) (settings : ModSettings) : Prop :=
  ∀ l ∈ literals item settings, ∀ r ∈ item.rules, ∀ e ∈ r.everyEffect, e.target? ≠ some l.name

/-- Every literal is kept under the name that its expression reads and has this slot to itself, and
every group rolls against its denominator. -/
structure OwnSlots (item : Item) (settings : ModSettings) (slots : List Slot) : Prop where
  read : ∀ l ∈ literals item settings, l.resolved.amount.expr = Slot.read l.name
  stored : ∀ l ∈ literals item settings, kept slots l.name = some l.value.content
  distinct : ((literals item settings).map (·.name)).Nodup
  unwritten : Unwritten item settings
  divisors : ∀ o ∈ itemOdds item settings,
    kept slots o.name = some (.int (Int64.ofNat o.denominator.toNat))

/-- No authored name meets the slot of a literal or of odds. -/
structure ClashFree (item : Item) (settings : ModSettings) : Prop where
  unwritten : Unwritten item settings
  /-- An offset that is kept under the name of a literal or of odds has the same value. -/
  offsets : ∀ r ∈ itemReadings item settings, ∀ slot, r.resolved.offsetSlot = some slot →
    (∀ l ∈ literals item settings, l.name = slot.name → l.value.content = slot.initial) ∧
    ∀ o ∈ itemOdds item settings, o.name = slot.name → (slotOf o).initial = slot.initial
  /-- A variable with the name of odds is written only after a group has rolled against them. -/
  divisors : ∀ before d e t captures after,
    triggeredTrace item settings = before ++ (d, fired e t captures) :: after →
      ∀ o ∈ itemOdds item settings, e.target? = some o.name → o.name ∈ (rolls before).map (·.name)
  /-- A bonus with a digit at its end does not have the slot of another literal. -/
  numbered : (literals item settings).Pairwise fun l r =>
    Numbered l ∨ Numbered r → l.name ≠ r.name
  /-- A bonus with the name of a bound agrees with the amount before it that has this bound. -/
  bounds : ∀ before l after, itemReadings item settings = before ++ l :: after →
    l ∈ literals item settings → BoundLike l →
      ∀ value, kept (before.flatMap (·.resolved.newSlots)) l.name = some value →
        value = l.value.content

section Clashes

variable {item : Item} {settings : ModSettings}

theorem exists_find? {slots : List Slot} {name : String} (h : name ∈ slots.map (·.name)) :
    ∃ first, slots.find? (·.name == name) = some first ∧ first.name = name := by
  obtain ⟨first, hfirst⟩ := Option.isSome_iff_exists.mp (mem_names_iff_find?.mp h)
  exact ⟨first, hfirst, by simpa using List.find?_some hfirst⟩

theorem kept_itemSlots (huser : item.userVariables = []) (name : String) :
    kept (itemSlots item settings) name = kept (declarations item settings) name := by
  have hnone : userSlots item = [] := by simp [userSlots, huser]
  rw [kept, kept, find?_itemSlots, hnone, List.nil_append, ← declarations_eq]

theorem ClashFree.distinct (h : ClashFree item settings) :
    ((literals item settings).map (·.name)).Nodup := by
  have hreadings : (itemReadings item settings).Pairwise fun r r' =>
      r.stem = r'.stem → r.name ≠ r'.name := by
    rw [itemReadings, itemTrace_eq]
    exact pairwise_readings settings.registry _ _
  have hunnumbered : ∀ l ∈ literals item settings, ¬Numbered l → Names.Unnumbered l.stem := by
    intro l hl hnumbered
    rcases stem_of_mem_itemReadings (List.mem_filter.mp hl).1 with hcalm | ⟨hkind, -⟩
    · exact hcalm.1
    · exact Decidable.byContradiction fun hstem => hnumbered ⟨hkind, hstem⟩
  refine List.pairwise_map.mpr ?_
  refine List.Pairwise.imp_of_mem ?_ ((hreadings.filter _).and h.numbered)
  rintro l r hl hr ⟨hstems, hnumbered⟩ hname
  by_cases hl' : Numbered l
  · exact hnumbered (.inl hl') hname
  by_cases hr' : Numbered r
  · exact hnumbered (.inr hr') hname
  obtain ⟨n, hn⟩ := name_of_mem_itemReadings (List.mem_filter.mp hl).1
  obtain ⟨m, hm⟩ := name_of_mem_itemReadings (List.mem_filter.mp hr).1
  have heq : Names.nth l.stem n = Names.nth r.stem m := by rw [← hn, ← hm, hname]
  exact hstems (Names.nth_inj (hunnumbered l hl hl') (hunnumbered r hr hr') heq).1 hname

/-- A literal keeps its value if the amounts before it do not ask for another under its name. -/
theorem kept_literal_iff {l : Reading} {before after : List Reading}
    (hunwritten : Unwritten item settings) (hl : l ∈ literals item settings)
    (hsplit : itemReadings item settings = before ++ l :: after) :
    kept (declarations item settings) l.name = some l.value.content ↔
      ∀ value, kept (before.flatMap (·.resolved.newSlots)) l.name = some value →
        value = l.value.content := by
  obtain ⟨front, d, s, back, htrace, rfl, hr⟩ := exists_point_of_readings_eq hsplit
  have hown : ∀ p ∈ front, ∀ slot ∈ p.2.ownSlots p.1, slot.name ≠ l.name := by
    rintro ⟨d', s'⟩ hp slot hslot hname
    have hpoint : (d', s') ∈ itemTrace item settings := by simp [htrace, hp]
    rcases mem_ownSlots hslot with ⟨e, t, captures, rfl, htarget, -⟩ |
      ⟨numerator, denominator, rfl, rfl⟩
    · obtain ⟨rule, hrule, he⟩ := exists_rule_of_target (mem_triggeredTrace hpoint (by simp))
      exact hunwritten l hl rule hrule e he (hname ▸ htarget)
    · exact name_ne_divisor (List.mem_filter.mp hl).1 (mem_itemOdds_of_rolled hpoint) hname.symm
  have hself : (s.declares settings.registry d).find? (·.name == l.name) =
      some { name := l.name, initial := l.value.content } := by
    rw [declares_eq, hr, Option.elim_some, resolved_of_literal hl]
    simp [Resolved.ofLiteral]
  have hfind : (declarations item settings).find? (·.name == l.name) =
      (((readings settings.registry front).flatMap (·.resolved.newSlots)).find?
        (·.name == l.name)).or (some { name := l.name, initial := l.value.content }) := by
    rw [declarations, htrace, declared, List.flatMap_append, List.find?_append, ← declared,
      find?_declared hown, ← declared, declared_cons, List.find?_append, hself, Option.some_or]
  rw [kept, kept, hfind]
  cases ((readings settings.registry front).flatMap (·.resolved.newSlots)).find?
    (·.name == l.name) <;> simp

theorem ClashFree.stored (h : ClashFree item settings) {l : Reading}
    (hl : l ∈ literals item settings) :
    kept (declarations item settings) l.name = some l.value.content := by
  have hreading := (List.mem_filter.mp hl).1
  obtain ⟨before, after, hsplit⟩ := List.append_of_mem hreading
  refine (kept_literal_iff h.unwritten hl hsplit).mpr fun value hvalue => ?_
  by_cases hbound : BoundLike l
  · exact h.bounds before l after hsplit hl hbound value hvalue
  obtain ⟨slot, hfind, rfl⟩ := Option.map_eq_some_iff.mp hvalue
  have hname : slot.name = l.name := by simpa using List.find?_some hfind
  obtain ⟨r, hbefore, hslot⟩ := List.mem_flatMap.mp (List.mem_of_find?_eq_some hfind)
  have hr : r ∈ itemReadings item settings := by simp [hsplit, hbefore]
  rcases slot_of_reading hr hslot with ⟨hr, rfl⟩ | hends | hoffset
  · rw [List.inj_on_of_nodup_map h.distinct hr hl hname]
  · have hstem := endsInBound_stem hreading (hname ▸ hends)
    rcases stem_of_mem_itemReadings hreading with hcalm | ⟨hkind, -⟩
    · exact absurd hstem hcalm.2.1
    · exact absurd ⟨hkind, hstem⟩ hbound
  · exact ((h.offsets r hr slot hoffset).1 l hl hname.symm).symm

theorem triggeredTrace_split {before after : List (Draft × Step)} {d : Draft} {s : Step}
    (h : itemTrace item settings = before ++ (d, s) :: after) (hs : ∀ e, s ≠ held e) :
    ∃ middle, before = passiveTrace item settings ++ middle ∧
      triggeredTrace item settings = middle ++ (d, s) :: after := by
  rcases List.append_eq_append_iff.mp h with ⟨middle, hbefore, htriggered⟩ |
    ⟨rest, hpassive, hafter⟩
  · exact ⟨middle, hbefore, htriggered⟩
  · cases rest with
    | nil => exact ⟨[], by simpa using hpassive.symm, hafter.symm⟩
    | cons p rest =>
      obtain ⟨rfl, -⟩ := List.cons.inj hafter
      have hmem : (d, s) ∈ passiveTrace item settings := by simp [hpassive]
      obtain ⟨e, rfl⟩ := held_of_mem_passiveTrace hmem
      exact absurd rfl (hs e)

theorem ClashFree.divisor (h : ClashFree item settings) {o : Odds}
    (ho : o ∈ itemOdds item settings) :
    kept (declarations item settings) o.name =
      some (.int (Int64.ofNat o.denominator.toNat)) := by
  obtain ⟨slot, hfind, hname⟩ := exists_find? (divisor_declared ho)
  obtain ⟨before, d, s, after, htrace, hslot, hbefore⟩ := exists_first hfind
  have hpoint : (d, s) ∈ itemTrace item settings := by simp [htrace]
  rw [kept, hfind, Option.map_some, Option.some.injEq]
  rcases mem_declares hslot with ⟨r, hr, hnew⟩ | hown
  · have hr := mem_itemReadings hpoint hr
    have hoffset := offset_of_divisor hr hnew ho hname
    exact ((h.offsets r hr slot hoffset).2 o ho hname.symm).symm
  rcases mem_ownSlots hown with ⟨e, t, captures, rfl, htarget, -⟩ |
    ⟨numerator, denominator, rfl, rfl⟩
  · -- The variable would be written first, but then a group has rolled before.
    obtain ⟨middle, rfl, htriggered⟩ := triggeredTrace_split htrace (by simp)
    obtain ⟨o', ho', hname'⟩ := List.mem_map.mp
      (h.divisors middle d e t captures after htriggered o ho (hname ▸ htarget))
    obtain ⟨d', numerator, denominator, hrolled, rfl⟩ := mem_rolls.mp ho'
    have hmem : slotOf (oddsOf d' numerator denominator) ∈
        declared settings.registry (passiveTrace item settings ++ middle) :=
      mem_declared (List.mem_append_right _ hrolled) (List.mem_singleton.mpr rfl)
    exact absurd hname' (hbefore _ hmem)
  · have heq := denominator_of_name (mem_itemOdds_of_rolled hpoint) ho hname
    exact congrArg (fun m => Value.int (Int64.ofNat (UInt32.toNat m))) heq

/-- An offset that passes the check is kept under its name, no effect writes it, and no variable has
this name. -/
theorem offset_kept (hcheck : checkOffsets item (itemSlots item settings) (authoredSlots item)
      (ruleDraft item settings) = .ok ()) {r : Reading} (hr : r ∈ itemReadings item settings)
    {slot : Slot} (hslot : r.resolved.offsetSlot = some slot) :
    kept (itemSlots item settings) slot.name = some slot.initial ∧
      NameSet.contains (ruleDraft item settings).written slot.name = false ∧
      (authoredSlots item).any (·.name == slot.name) = false := by
  obtain ⟨d, s, hpoint, hreading⟩ := exists_point_of_mem_readings hr
  obtain ⟨d', hgrows, -, hrequired⟩ := grows_of_reading hreading
  obtain ⟨required, hmem, hsame⟩ := hrequired slot hslot
  obtain ⟨first, hfirst, hfirstSame, hwritten, huser⟩ := checkOffset_eq_ok (forM_eq_ok hcheck
    required ((hgrows.trans (grows_ruleDraft hpoint)).required hmem))
  obtain ⟨captures, hresolved⟩ := resolved_of_reading hreading
  obtain ⟨_, _, _, x, -, -, hoffset⟩ := Resolved.exists_of_offsetSlot (hresolved ▸ hslot)
  have hx : slot.initial = .ofNumber x := congrArg Slot.initial hoffset
  obtain ⟨hname, hinitial⟩ : required.name = slot.name ∧ required.initial = slot.initial := by
    rcases hsame with rfl | hsame
    · exact ⟨rfl, rfl⟩
    · simp only [Slot.sameAs, Bool.and_eq_true, beq_iff_eq] at hsame
      rw [hx] at hsame ⊢
      exact ⟨hsame.1.1, eq_of_sameAs_ofNumber hsame.1.2⟩
  rw [hname] at hfirst hwritten huser
  rw [hinitial, hx] at hfirstSame
  rw [kept, hfirst, hx, ← eq_of_sameAs_ofNumber hfirstSame]
  exact ⟨rfl, hwritten, huser⟩

theorem mem_of_append_cons_eq {α : Type} {before after front back : List α} {x y : α}
    (h : before ++ x :: after = front ++ y :: back) : x ∈ front ∨ x = y ∨ y ∈ before := by
  rcases List.append_eq_append_iff.mp h with ⟨rest, rfl, hrest⟩ | ⟨rest, rfl, hrest⟩
  · cases rest with
    | nil => exact .inr (.inl (List.cons.inj hrest).1)
    | cons z rest => exact .inl (by simp [(List.cons.inj hrest).1])
  · cases rest with
    | nil => exact .inr (.inl (List.cons.inj hrest).1.symm)
    | cons z rest => exact .inr (.inr (by simp [(List.cons.inj hrest).1]))

theorem OwnSlots.rolled_first (huser : item.userVariables = [])
    (hcheck : checkOffsets item (itemSlots item settings) (authoredSlots item)
      (ruleDraft item settings) = .ok ())
    (h : OwnSlots item settings (itemSlots item settings))
    {before after : List (Draft × Step)} {d : Draft} {e : Effect} {t : Trigger}
    {captures : Captures}
    (htriggered : triggeredTrace item settings = before ++ (d, fired e t captures) :: after)
    {o : Odds} (ho : o ∈ itemOdds item settings) (htarget : e.target? = some o.name) :
    o.name ∈ (rolls before).map (·.name) := by
  have hsplit : itemTrace item settings =
      (passiveTrace item settings ++ before) ++ (d, fired e t captures) :: after := by
    rw [itemTrace, htriggered, List.append_assoc]
  have hfired : (d, fired e t captures) ∈ itemTrace item settings := by simp [hsplit]
  obtain ⟨slot, hfind, hname⟩ := exists_find? (divisor_declared ho)
  obtain ⟨front, d', s, back, htrace, hslot, hfront⟩ := exists_first hfind
  have hpoint : (d', s) ∈ itemTrace item settings := by simp [htrace]
  have hkept := h.divisors o ho
  rw [kept_itemSlots huser, kept, hfind, Option.map_some, Option.some.injEq] at hkept
  rcases mem_declares hslot with ⟨r, hr, hnew⟩ | hown
  · have hr := mem_itemReadings hpoint hr
    have hoffset := offset_of_divisor hr hnew ho hname
    have hwritten := (grows_ruleDraft hfired).written o.name
      (written_run settings.registry d t captures htarget)
    rw [← hname, (offset_kept hcheck hr hoffset).2.1] at hwritten
    exact nomatch hwritten
  rcases mem_ownSlots hown with ⟨e', t', captures', rfl, -, hzero⟩ |
    ⟨numerator, denominator, rfl, rfl⟩
  · exact absurd (hkept.symm.trans hzero) (denominator_ne_zero ho)
  · -- The roll comes before the writing step, for that step asks for the name too.
    rcases mem_of_append_cons_eq (hsplit.symm.trans htrace) with hmem | heq | hmem
    · have hdeclared := mem_declared hmem
        (target_mem_declares settings.registry d t captures htarget)
      exact absurd rfl (hfront _ hdeclared)
    · exact nomatch (Prod.mk.inj heq).2
    · rcases List.mem_append.mp hmem with hmem | hmem
      · exact nomatch held_of_mem_passiveTrace hmem
      · exact List.mem_map.mpr ⟨_, mem_rolls.mpr ⟨d', numerator, denominator, hmem, rfl⟩, hname⟩

theorem OwnSlots.clashFree (huser : item.userVariables = [])
    (hcheck : checkOffsets item (itemSlots item settings) (authoredSlots item)
      (ruleDraft item settings) = .ok ())
    (h : OwnSlots item settings (itemSlots item settings)) : ClashFree item settings := by
  refine ⟨h.unwritten, fun r hr slot hslot => ?_, ?_, ?_, fun before l after hsplit hl _ => ?_⟩
  · obtain ⟨hkept, -⟩ := offset_kept hcheck hr hslot
    refine ⟨fun l hl hname => ?_, fun o ho hname => ?_⟩
    · have hl := h.stored l hl
      rw [hname, hkept] at hl
      exact (Option.some.inj hl).symm
    · have ho := h.divisors o ho
      rw [hname, hkept] at ho
      exact (Option.some.inj ho).symm
  · intro before d e t captures after htriggered o ho htarget
    exact h.rolled_first huser hcheck htriggered ho htarget
  · refine List.Pairwise.imp ?_ (List.pairwise_map.mp h.distinct)
    exact fun hne _ => hne
  · refine (kept_literal_iff h.unwritten hl hsplit).mp ?_
    rw [← kept_itemSlots huser]
    exact h.stored l hl

/-- Without variables of its own, an item keeps its literals apart exactly if no name clashes. -/
theorem ownSlots_iff_clashFree {cell : AtlasCell} {definition : Definition}
    (huser : item.userVariables = [])
    (h : Definition.compile item cell settings = .ok definition) :
    OwnSlots item settings definition.slots ↔ ClashFree item settings := by
  obtain ⟨-, -, hcheck, rfl⟩ := compile_eq_ok_iff.mp h
  refine ⟨OwnSlots.clashFree huser hcheck, fun hfree => ?_⟩
  refine ⟨fun l hl => ?_, fun l hl => ?_, hfree.distinct, hfree.unwritten, fun o ho => ?_⟩
  · rw [resolved_of_literal hl]
    rfl
  · rw [kept_itemSlots huser]
    exact hfree.stored hl
  · rw [kept_itemSlots huser]
    exact hfree.divisor ho

end Clashes

/-- An item with every kind of amount, a variable that it writes and odds of nothing. -/
def spread : Item where
  id := "i"
  name := "Spread"
  rules := [
    { id := "p"
      trigger := .passive
      effects := [{ id := "a", kind := .editHands, params := .ofList [("value", .int 2)] }] },
    { id := "s"
      trigger := .cardScored
      effects := [
        { id := "b", kind := .addChips, params := .ofList [("value", .str " 7 ")] },
        { id := "c", kind := .permaBonus, params := .ofList [("value", .bool true)] },
        { id := "d", kind := .addMult, params := .ofList [("value", .str "RANGE:1|4")] },
        { id := "e", kind := .addChips, params := .ofList [("value", .str "GAMEVAR:ante|1|5")] },
        { id := "f"
          kind := .modifyInternalVariable
          params := .ofList [("variable_name", .str "charge"), ("value", .int 3)] }]
      randomGroups := [⟨"g", 1, 0, [{ id := "h", kind := .addChips }]⟩] }]

theorem literals_spread :
    (literals spread {}).map (·.name) =
      ["hands", "chips", "perma_bonus", "charge_change", "chips3"] := by decide +kernel

theorem clashFree_spread : ClashFree spread {} := by
  have hname : ∀ l ∈ literals spread {},
      l.name ∈ ["hands", "chips", "perma_bonus", "charge_change", "chips3"] := by
    rw [← literals_spread]
    exact fun l hl => List.mem_map_of_mem hl
  have htargets : ∀ r ∈ spread.rules, ∀ e ∈ r.everyEffect, ∀ name ∈ e.target?,
      name = "charge" := by decide +kernel
  have hitem : (∀ o ∈ itemOdds spread {}, o.name = "odds") ∧
      (∀ r ∈ itemReadings spread {}, ∀ slot ∈ r.resolved.offsetSlot, slot.name = "ante") ∧
      ∀ l ∈ literals spread {}, ¬Numbered l ∧ ¬BoundLike l := by
    unfold Numbered BoundLike
    decide +kernel
  obtain ⟨hodds, hoffset, hbonus⟩ := hitem
  refine ⟨fun l hl r hr e he htarget => ?_, fun r hr slot hslot => ⟨fun l hl heq => ?_,
    fun o ho heq => ?_⟩, fun before d e t captures after htriggered o ho htarget => ?_, ?_,
    fun before l after hsplit hl hbound => absurd hbound (hbonus l hl).2⟩
  · have hcharge := hname l hl
    rw [htargets r hr e he l.name htarget] at hcharge
    exact absurd hcharge (by decide)
  · have hante := hname l hl
    rw [heq, hoffset r hr slot hslot] at hante
    exact absurd hante (by decide)
  · rw [hodds o ho, hoffset r hr slot hslot] at heq
    exact absurd heq (by decide)
  · have hpoint : (d, fired e t captures) ∈ triggeredTrace spread {} := by simp [htriggered]
    obtain ⟨r, hr, he⟩ := exists_rule_of_target hpoint
    have hcharge := htargets r hr e he o.name htarget
    rw [hodds o ho] at hcharge
    exact absurd hcharge (by decide)
  · refine List.pairwise_of_forall_mem_list fun l hl r hr hnumbered => ?_
    exact absurd hnumbered (not_or.mpr ⟨(hbonus l hl).1, (hbonus r hr).1⟩)

theorem spread_ownSlots :
    ∃ definition, Definition.compile spread ⟨0, ⟨0, 0⟩, none⟩ {} = .ok definition ∧
      (literals spread {}).map (·.name) =
        ["hands", "chips", "perma_bonus", "charge_change", "chips3"] ∧
      OwnSlots spread {} definition.slots := by
  obtain ⟨definition, hcompile, -⟩ := exists_compile spread ⟨0, ⟨0, 0⟩, none⟩ {}
    (by decide) (by decide) (by decide +kernel)
  refine ⟨definition, hcompile, literals_spread, ?_⟩
  exact (ownSlots_iff_clashFree rfl hcompile).mpr clashFree_spread

/-- An item that reads the ante with an offset and changes the ante. -/
def anteReader : Item where
  id := "i"
  name := "A"
  rules := [
    { id := "r"
      trigger := .handPlayed
      effects := [
        { id := "e1", kind := .addChips, params := .ofList [("value", .str "GAMEVAR:ante|1|5")] },
        { id := "e2", kind := .setAnte, params := .ofList [("value", .int 1)] }] }]

/-- The offset of the reading takes the slot of the literal. -/
theorem offset_takes_slot :
    ∃ definition, Definition.compile anteReader ⟨0, ⟨0, 0⟩, none⟩ {} = .ok definition ∧
      (literals anteReader {}).map (fun l => (l.name, l.value)) = [("ante", .int 1)] ∧
      kept definition.slots "ante" = some (.int 5) ∧ ¬OwnSlots anteReader {} definition.slots := by
  have hitem : checkOffsets anteReader (itemSlots anteReader {}) (authoredSlots anteReader)
        (ruleDraft anteReader {}) = .ok () ∧
      (literals anteReader {}).map (fun l => (l.name, l.value)) = [("ante", .int 1)] ∧
      kept (itemSlots anteReader {}) "ante" = some (.int 5) := by
    decide +kernel
  obtain ⟨hcheck, hliterals, hkept⟩ := hitem
  obtain ⟨definition, hcompile, hslots⟩ := exists_compile anteReader ⟨0, ⟨0, 0⟩, none⟩ {}
    (by decide) (by decide) hcheck
  rw [← hslots] at hkept
  refine ⟨definition, hcompile, hliterals, hkept, fun h => ?_⟩
  have hmem : ("ante", Value.int 1) ∈ (literals anteReader {}).map fun l => (l.name, l.value) := by
    rw [hliterals]
    exact List.mem_singleton.mpr rfl
  obtain ⟨l, hl, heq⟩ := List.mem_map.mp hmem
  obtain ⟨hname, hvalue⟩ := Prod.mk.inj heq
  have hstored := h.stored l hl
  rw [hname, hvalue, hkept] at hstored
  exact absurd hstored (by decide)

end JokerRules.Literals
