import JokerRules.Proofs.HoistedCode
import JokerRules.Proofs.Readings

/-! Names that a slot can have. A slot is declared as a key of a table and read as a field of the
card, so its name has to be a word of the generated language, and none that the language keeps for
itself. The stems of amounts, their bounds and the names of offsets are such words. -/

namespace JokerRules.SlotNames

open Step Text

def reservedWords : List String :=
  ["and", "break", "do", "else", "elseif", "end", "false", "for", "function", "if", "in", "local",
    "nil", "not", "or", "repeat", "return", "then", "true", "until", "while"]

/-- Letters, digits and underscores of ASCII, at least one, the first no digit. -/
structure Spelled (name : String) : Prop where
  nonempty : name ≠ ""
  chars : ∀ c ∈ name.toList, isNameChar c = true
  first : ∀ c ∈ name.toList.head?, c.isDigit = false

structure Legal (name : String) : Prop extends Spelled name where
  unreserved : name ∉ reservedWords

instance (name : String) : Decidable (Spelled name) :=
  decidable_of_iff (name ≠ "" ∧ name.toList.all isNameChar = true ∧
      (name.toList.head?.all fun c => !c.isDigit) = true)
    ⟨fun h => ⟨h.1, List.all_eq_true.mp h.2.1, by simpa [Option.all_eq_true] using h.2.2⟩,
      fun h => ⟨h.nonempty, List.all_eq_true.mpr h.chars,
        by simpa [Option.all_eq_true] using h.first⟩⟩

instance (name : String) : Decidable (Legal name) :=
  decidable_of_iff (Spelled name ∧ name ∉ reservedWords)
    ⟨fun h => ⟨h.1, h.2⟩, fun h => ⟨h.toSpelled, h.unreserved⟩⟩

theorem unmarked_of_reserved : ∀ word ∈ reservedWords, ∀ c ∈ word.toList,
    c ≠ '_' ∧ c.isDigit = false := by
  have hall : reservedWords.all
      (fun word => word.toList.all fun c => c != '_' && !c.isDigit) = true := by decide +kernel
  simpa [List.all_eq_true] using hall

theorem Spelled.append {name ending : String} (h : Spelled name)
    (hending : ∀ c ∈ ending.toList, isNameChar c = true) : Spelled (name ++ ending) := by
  have hne : name.toList ≠ [] := fun hnil => h.nonempty (String.toList_eq_nil_iff.mp hnil)
  obtain ⟨c, cs, hcs⟩ := List.exists_cons_of_ne_nil hne
  refine ⟨fun hempty => ?_, fun d hd => ?_, fun d hd => ?_⟩
  · have hlist := congrArg String.toList hempty
    simp [hcs] at hlist
  · rw [String.toList_append] at hd
    exact (List.mem_append.mp hd).elim (h.chars d) (hending d)
  · apply h.first
    simpa [hcs] using hd

/-- Reserved words have no underscore and no digit, so an ending with one of these is enough. -/
theorem Spelled.legal_append {name ending : String} (h : Spelled name)
    (hending : ∀ c ∈ ending.toList, isNameChar c = true) {c : Char} (hc : c ∈ ending.toList)
    (hmark : c = '_' ∨ c.isDigit = true) : Legal (name ++ ending) := by
  refine ⟨h.append hending, fun hreserved => ?_⟩
  have hmem : c ∈ (name ++ ending).toList := by simp [hc]
  obtain ⟨hunderscore, hdigit⟩ := unmarked_of_reserved _ hreserved c hmem
  rcases hmark with rfl | hmark
  · exact hunderscore rfl
  · rw [hmark] at hdigit
    exact nomatch hdigit

theorem Legal.nth {stem : String} (h : Legal stem) (n : Nat) : Legal (Names.nth stem n) := by
  obtain ⟨digits, hdigits, htext⟩ := Names.nth_eq_append stem n
  have hname : Names.nth stem n = stem ++ String.ofList digits := by
    rw [← String.toList_inj, htext, String.toList_append, String.toList_ofList]
  rw [hname]
  cases digits with
  | nil => simpa using h
  | cons c cs =>
    have hc : c ∈ (String.ofList (c :: cs)).toList := by simp
    refine h.toSpelled.legal_append (fun d hd => ?_) hc (.inr (hdigits c List.mem_cons_self))
    have hd := hdigits d (by simpa using hd)
    simp [isNameChar, Char.isAlphanum, hd]

theorem Legal.bounds {name : String} (h : Legal name) :
    Legal (name ++ "_min") ∧ Legal (name ++ "_max") := by
  constructor
  · exact h.toSpelled.legal_append (by simp [isNameChar, Char.isAlphanum])
      (by decide : '_' ∈ "_min".toList) (.inl rfl)
  · exact h.toSpelled.legal_append (by simp [isNameChar, Char.isAlphanum])
      (by decide : '_' ∈ "_max".toList) (.inl rfl)

theorem spelled_identifier {raw : String} (h : identifier raw ≠ "") : Spelled (identifier raw) := by
  refine ⟨h, isNameChar_identifier raw, fun c hc => ?_⟩
  rw [identifier, String.toList_ofList, guardDigit] at hc
  split at hc
  · rw [List.head?_cons, Option.mem_some_iff] at hc
    rw [← hc]
    rfl
  · next hdigit =>
    rw [Option.mem_def.mp hc] at hdigit
    simpa using hdigit

theorem spelled_target {e : Effect} {name : String} (h : e.target? = some name) : Spelled name := by
  unfold Effect.target? at h
  split at h
  · obtain ⟨hsome, hne⟩ := Option.filter_eq_some_iff.mp h
    obtain ⟨raw, -, rfl⟩ := Option.map_eq_some_iff.mp hsome
    exact spelled_identifier (by simpa using hne)
  · exact nomatch h

theorem legal_change {e : Effect} {name : String} (h : e.target? = some name) :
    Legal (name ++ "_change") :=
  (spelled_target h).legal_append (by simp [isNameChar, Char.isAlphanum])
    (by decide : '_' ∈ "_change".toList) (.inl rfl)

theorem legal_bonus {raw : String} (h : startsWith "perma_" (identifier raw) = true) :
    Legal (identifier raw) := by
  obtain ⟨rest, hrest⟩ := List.isPrefixOf_iff_prefix.mp h
  have hmem : '_' ∈ (identifier raw).toList := by simp [← hrest]
  have hne : identifier raw ≠ "" := by
    intro hempty
    simp [hempty] at hmem
  exact ⟨spelled_identifier hne, fun hreserved => (unmarked_of_reserved _ hreserved '_' hmem).1 rfl⟩

/-- The stems that are not authored: those of amounts and that of the odds. -/
def fixedStems : List String :=
  Quantity.holdable.map (·.stem) ++
    ["chips", "mult", "xmult", "xchips", "emult", "echips", "dollars", "repetitions", "sell_value",
      "levels", "cards", "blind_size", "ante", "probability", "discount", "odds"]

theorem legal_fixedStems : ∀ stem ∈ fixedStems, Legal stem := by
  decide +kernel

theorem legal_quantity {k : EffectKind} {q : Quantity} (h : Quantity.ofKind? k = some q) :
    Legal q.stem :=
  legal_fixedStems _ (List.mem_append_left _ (List.mem_map_of_mem (Quantity.mem_holdable h)))

theorem legal_field {k : EffectKind} {f : ScoreField} (h : ScoreField.ofKind? k = some f) :
    Legal f.stem := by
  cases k <;> cases h <;> exact legal_fixedStems _ (by decide)

theorem legalStem_plan {e : Effect} {t : Trigger} {plan : Plan Output} (h : e.plan? t = some plan) :
    plan.StemIs Legal := by
  cases Effect.planned_of_plan h with
  | score kind => exact legal_field kind
  | changeQuantity kind _ => exact legal_quantity kind
  | modifyVariable _ target => exact legal_change target
  | permaBonus _ bonus => exact legal_bonus bonus
  | retrigger | setDollars | setSellValue | levelUp | drawCards | editBlindSize | setAnte
  | modifyProbability =>
    exact legal_fixedStems _ (by decide)
  | showMessage | balance | swapChipsMult | savedFromDeath | removeCard | destroyCard | createJoker
  | destroyJoker | copyJoker | destroySelf | createConsumable | destroyConsumable | copyConsumable
  | createTag | addCardToDeck | copyTriggeredCard | editTriggeredCard | drawConversion | convertCards
  | disableBossBlind =>
    trivial

theorem legalStem_heldPlan {e : Effect} {owner : String} {plan : Plan PassiveEffect}
    (h : e.heldPlan? owner = some plan) : plan.StemIs Legal := by
  rcases Effect.heldPlan_cases h with ⟨q, hq, rfl⟩ | ⟨-, rfl⟩ | ⟨-, -, r, rfl, -⟩
  · exact legal_quantity hq
  · exact legal_fixedStems "discount" (by decide)
  · trivial

theorem legal_stem {registry : Registry} {d : Draft} {s : Step} {r : Reading}
    (h : s.reading? registry d = some r) : Legal r.stem := by
  rcases reading_cases h with ⟨e, plan, -, hplan, hr⟩ | ⟨e, t, captures, plan, -, hplan, hr⟩
  · exact stem_of_plan (legalStem_heldPlan hplan) hr
  · exact stem_of_plan (legalStem_plan hplan) hr

theorem legal_offsetName {id : String} {var : GameVariable}
    (h : Registry.builtin.get? id = some var) : Legal (offsetName var.label) := by
  have hall : ∀ row ∈ Registry.builtinTable,
      (row.2.2.toList.filter fun c => !isBlank c).map Char.toLower ∉
        [] :: reservedWords.map String.toList := by
    decide +kernel
  obtain ⟨row, hrow, rfl⟩ := Brackets.get?_builtin h
  have hletters := Brackets.label_builtinTable row hrow
  have hfree := hall row hrow
  rw [← String.toList_ofList (l := List.map _ _), ← Brackets.offsetName_eq hletters,
    List.mem_cons, not_or] at hfree
  have hrange : ∀ c ∈ (offsetName row.2.2).toList, 97 ≤ c.toNat ∧ c.toNat ≤ 122 := fun c hc =>
    Brackets.mem_offsetName hletters hc
  refine ⟨⟨fun hempty => hfree.1 (String.toList_eq_nil_iff.mpr hempty), fun c hc => ?_, fun c hc => ?_⟩,
    fun hreserved => hfree.2 (List.mem_map_of_mem hreserved)⟩
  · exact isNameChar_iff.mpr (.inr (.inl (hrange c hc)))
  · have hlow := (hrange c (List.mem_of_mem_head? hc)).1
    rw [Bool.eq_false_iff]
    intro hdigit
    have hhigh := (Brackets.toNat_digit hdigit).2
    omega

theorem legal_offsetSlot {v : Value} {id hint : String} {captures : Captures} {slot : Slot}
    (h : (Resolved.ofValue v id hint .builtin captures).offsetSlot = some slot) :
    Legal slot.name := by
  obtain ⟨_, _, _, _, hvar, -, rfl⟩ := Resolved.exists_of_offsetSlot h
  exact legal_offsetName hvar

/-- The slots of an amount have legal names, whatever its value. -/
theorem legal_newSlots {d : Draft} {s : Step} {r : Reading} {slot : Slot}
    (h : s.reading? .builtin d = some r) (hslot : slot ∈ r.resolved.newSlots) :
    Legal slot.name := by
  have hname : Legal r.name := by
    rw [name_of_reading h]
    exact (legal_stem h).nth _
  obtain ⟨captures, hresolved⟩ := resolved_of_reading h
  rw [hresolved] at hslot
  rcases Resolved.mem_newSlots_ofValue hslot with ⟨-, rfl⟩ | (hmin | hmax) | hoffset
  · exact hname
  · exact hmin ▸ hname.bounds.1
  · exact hmax ▸ hname.bounds.2
  · exact legal_offsetSlot hoffset

end JokerRules.SlotNames
