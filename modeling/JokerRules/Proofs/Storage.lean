import JokerRules.Proofs.StoredSlots

/-! The storage of a compiled item. The slots are the first declarations of their names, and the
description lists each of them once. -/

namespace JokerRules.Storage

open Step Text

/-- How the description lists a slot: odds by the pair of names with their number, any other slot by
its reading. -/
def listed (odds : List Odds) (slot : Slot) : List String :=
  match odds.findIdx? (·.name == slot.name) with
  | some i => [Names.nth "numerator" (i + 1), Names.nth "denominator" (i + 1)]
  | none => [Slot.read slot.name]

/-- The statement that binds the pair of names to what the game makes of the odds. -/
def bound (owner : String) (odds : List Odds) (slot : Slot) : List String :=
  match odds.findIdx? (·.name == slot.name), odds.find? (·.name == slot.name) with
  | some i, some o =>
    ["local " ++ Names.nth "numerator" (i + 1) ++ ", " ++ Names.nth "denominator" (i + 1) ++
      " = SMODS.get_probability_vars(card, " ++ toString o.numerator.toNat ++ ", " ++
      Slot.read slot.name ++ ", " ++ singleQuoted owner ++ ")"]
  | _, _ => []

theorem listing_eq (d : Draft) (slot : Slot) :
    listing d slot = (bound d.owner d.odds slot, listed d.odds slot) := by
  unfold listing bound listed
  cases hi : d.odds.findIdx? (·.name == slot.name) with
  | none => rfl
  | some i =>
    have hany : d.odds.any (·.name == slot.name) = true := by
      rw [← List.findIdx?_isSome, hi]
      rfl
    obtain ⟨odds, hodds⟩ := Option.isSome_iff_exists.mp
      (List.find?_isSome.mpr (List.any_eq_true.mp hany))
    simp only [hodds, String.append_assoc]
    rfl

theorem head?_nth {stem : String} {c : Char} (h : stem.toList.head? = some c) (n : Nat) :
    (Names.nth stem n).toList.head? = some c := by
  obtain ⟨digits, -, hnth⟩ := Names.nth_eq_append stem n
  rw [hnth, List.head?_append, h]
  rfl

theorem head?_numerator (n : Nat) : (Names.nth "numerator" n).toList.head? = some 'n' :=
  head?_nth (by decide) n

theorem head?_denominator (n : Nat) : (Names.nth "denominator" n).toList.head? = some 'd' :=
  head?_nth (by decide) n

theorem numerator_ne_denominator (n m : Nat) :
    Names.nth "numerator" n ≠ Names.nth "denominator" m := by
  intro h
  have hn := head?_numerator n
  rw [h, head?_denominator] at hn
  exact absurd hn (by decide)

theorem head?_ofList (c : Char) (cs : List Char) (rest : String) :
    (String.ofList (c :: cs) ++ rest).toList.head? = some c := by
  simp

theorem head?_read (name : String) : (Slot.read name).toList.head? = some 'c' :=
  head?_ofList _ _ name

theorem numerator_ne_read (n : Nat) (name : String) :
    Names.nth "numerator" n ≠ Slot.read name := by
  intro h
  have hn := head?_numerator n
  rw [h, head?_read] at hn
  exact absurd hn (by decide)

theorem denominator_ne_read (n : Nat) (name : String) :
    Names.nth "denominator" n ≠ Slot.read name := by
  intro h
  have hn := head?_denominator n
  rw [h, head?_read] at hn
  exact absurd hn (by decide)

theorem name_of_findIdx? {odds : List Odds} {slot : Slot} {i : Nat}
    (h : odds.findIdx? (·.name == slot.name) = some i) :
    (odds.map (·.name))[i]? = some slot.name := by
  obtain ⟨hi, hname, -⟩ := List.findIdx?_eq_some_iff_getElem.mp h
  simpa [hi] using hname

theorem disjoint_listed (odds : List Odds) {s t : Slot} (h : s.name ≠ t.name) :
    List.Disjoint (listed odds s) (listed odds t) := by
  intro x hs ht
  unfold listed at hs ht
  cases hi : odds.findIdx? (·.name == s.name) <;> cases hj : odds.findIdx? (·.name == t.name) <;>
    simp only [hi, hj, List.mem_cons, List.not_mem_nil, or_false] at hs ht
  case none.none =>
    exact h ((String.append_right_inj _).mp (hs.symm.trans ht))
  case none.some j =>
    rcases ht with ht | ht
    · exact numerator_ne_read _ _ (ht.symm.trans hs)
    · exact denominator_ne_read _ _ (ht.symm.trans hs)
  case some.none i =>
    rcases hs with hs | hs
    · exact numerator_ne_read _ _ (hs.symm.trans ht)
    · exact denominator_ne_read _ _ (hs.symm.trans ht)
  case some.some i j =>
    have hij : i + 1 ≠ j + 1 := by
      intro hij
      obtain rfl : i = j := by omega
      exact h (Option.some.inj ((name_of_findIdx? hi).symm.trans (name_of_findIdx? hj)))
    rcases hs with hs | hs <;> rcases ht with ht | ht <;> have heq := hs.symm.trans ht
    · exact hij (Names.nth_injective heq)
    · exact numerator_ne_denominator _ _ heq
    · exact numerator_ne_denominator _ _ heq.symm
    · exact hij (Names.nth_injective heq)

theorem nodup_listed {slots : List Slot} (h : (slots.map (·.name)).Nodup) (odds : List Odds) :
    (slots.flatMap (listed odds)).Nodup := by
  refine List.nodup_flatMap.mpr ⟨fun slot _ => ?_, ?_⟩
  · unfold listed
    split
    · simp [numerator_ne_denominator]
    · simp
  · exact (List.pairwise_map.mp h).imp fun hne => disjoint_listed odds hne

/-- The result of the function that lists the slots. -/
def returned (vars : List String) : String :=
  if vars = [] then "return \x7b vars = \x7b\x7d \x7d"
  else "return \x7b vars = \x7b " ++ ", ".intercalate vars ++ " \x7d \x7d"

theorem listingFunction_eq (slots : List Slot) (d : Draft) :
    listingFunction slots d = unlines ["function(self, info_queue, card)",
      indent 1 (unlines (slots.flatMap (bound d.owner d.odds) ++
        [returned (slots.flatMap (listed d.odds))])), "end"] := by
  simp only [listingFunction, listing_eq, returned, List.isEmpty_iff]

theorem mem_entries (item : Item) (cell : AtlasCell) (settings : ModSettings) (slots : List Slot)
    (d : Draft) (calculate : Option String) (passive : DeckCode) :
    "loc_vars = " ++ listingFunction slots d ∈
      Definition.entries item cell settings slots d calculate passive := by
  simp only [Definition.entries, List.mem_append, List.mem_cons, true_or, or_true]

/-- The definition declares the first slot asked for under each name, counting the authored
variables before the passive effects and these before the triggered ones, and lists each
slot once. -/
theorem slots_are_first_declarations {item : Item} {cell : AtlasCell} {settings : ModSettings}
    {definition : Definition} (h : Definition.compile item cell settings = .ok definition) :
    let user := userSlots item
    let passive := passiveDeclarations item settings
    let triggered := triggeredDeclarations item settings
    let odds := firsts Odds.name (rolls (Definition.triggeredTrace item settings))
    let vars := definition.slots.flatMap (listed odds)
    (definition.slots.map (·.name)).Nodup ∧
    (∀ slot ∈ user ++ passive ++ triggered, slot.name ∈ definition.slots.map (·.name)) ∧
    (∀ name, definition.slots.find? (·.name == name) =
      (user ++ passive ++ triggered).find? (·.name == name)) ∧
    definition.slots =
      (firsts Slot.name passive).filter (·.name ∉ user.map (·.name)) ++
      firsts Slot.name user ++
      (firsts Slot.name triggered).filter (·.name ∉ (passive ++ user).map (·.name)) ∧
    vars.Nodup ∧
    ∃ before after, definition.source = "SMODS.Joker " ++ table (before ++
      ("loc_vars = " ++ unlines ["function(self, info_queue, card)",
        indent 1 (unlines (definition.slots.flatMap (bound definition.key odds) ++
          [returned vars])), "end"]) :: after) := by
  obtain ⟨-, -, -, rfl⟩ := Definition.compile_eq_ok_iff.mp h
  intro user passive triggered odds vars
  have hnodup : ((Definition.itemSlots item settings).map (·.name)).Nodup := by
    rw [itemSlots_eq]
    exact nodup_firsts Slot.name _
  have hfind := find?_itemSlots item settings
  have hodds : (Definition.ruleDraft item settings).odds = odds :=
    (stored_ruleDraft item settings).odds
  refine ⟨hnodup, fun slot hslot => ?_, hfind, itemSlots_segments item settings,
    nodup_listed hnodup odds, ?_⟩
  · refine mem_names_iff_find?.mpr ?_
    rw [hfind, ← mem_names_iff_find?]
    exact List.mem_map_of_mem hslot
  · obtain ⟨before, after, hentries⟩ := List.append_of_mem (mem_entries item cell settings
      (Definition.itemSlots item settings) (Definition.ruleDraft item settings)
      (Definition.ruleResult item settings).1.2 (Definition.ruleResult item settings).1.1)
    refine ⟨before, after, congrArg (fun entries => "SMODS.Joker " ++ table entries) ?_⟩
    rw [listingFunction_eq, hodds, Definition.owner_ruleDraft] at hentries
    exact hentries

/-- An item whose variable takes its name from a passive effect and from a triggered one. -/
def sampler : Item where
  id := "i"
  name := "Sampler"
  userVariables := [⟨"v", "Hands", .int 7, none⟩]
  rules := [
    { id := "p"
      trigger := .passive
      effects := [{ id := "a", kind := .editHands }, { id := "b", kind := .editDiscards }] },
    { id := "h"
      trigger := .handPlayed
      effects := [{ id := "c", kind := .addChips }, { id := "d", kind := .editHands }]
      randomGroups := [⟨"g", 1, 3, [{ id := "e", kind := .addChips }]⟩] }]

theorem sampler_slots :
    ∃ definition, Definition.compile sampler ⟨0, ⟨0, 0⟩, none⟩ {} = .ok definition ∧
      definition.slots.map (·.name) = ["discards", "hands", "chips", "hands2", "chips2", "odds"] ∧
      definition.slots.find? (·.name == "hands") = some ⟨"hands", .int 7, none⟩ := by
  obtain ⟨definition, hcompile, -⟩ := Definition.exists_compile sampler ⟨0, ⟨0, 0⟩, none⟩ {}
    (by decide) (by decide) (by decide +kernel)
  obtain ⟨-, -, hfind, hslots, -⟩ := slots_are_first_declarations hcompile
  refine ⟨definition, hcompile, ?_, (hfind "hands").trans (by decide +kernel)⟩
  rw [hslots]
  decide +kernel

end JokerRules.Storage
