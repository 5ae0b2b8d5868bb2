import JokerRules.Proofs.IdentifierCore

/-! The form of identifiers. An identifier is a word of lower-case letters and digits with
single underscores between them, and every such word is its own identifier. Case, blanks around
a name and the passage to the identifier itself therefore make no difference to the slot that a
name addresses. -/

namespace JokerRules

open Text

namespace Text

/-- Lower-case letters, digits and single underscores of ASCII. The last character is no underscore,
and the first one is a letter or else an underscore before a digit. -/
structure IsIdentifier (cs : List Char) : Prop where
  chars : ∀ c ∈ cs, IsIdentifierChar c
  single : Single cs
  last : cs.getLast? ≠ some '_'
  first : (∃ c rest, cs = c :: rest ∧ c.isLower = true) ∨
    ∃ c rest, cs = '_' :: c :: rest ∧ c.isDigit = true

theorem isIdentifierChar_of_mem_core {cs : List Char} {c : Char} (h : c ∈ identifierCore cs) :
    IsIdentifierChar c := by
  obtain ⟨d, -, hd⟩ := List.mem_filterMap.mp
    (mem_squeeze_iff.mp ((infix_trimUnderscores _).subset h))
  rcases identifierChar?_eq_some hd with ⟨hunderscore, -⟩ | ⟨hword, -⟩
  · exact .inr (.inr hunderscore)
  · exact or_assoc.mp (.inl hword)

theorem isIdentifier_identifier {raw : String} (h : identifier raw ≠ "") :
    IsIdentifier (identifier raw).toList := by
  have hchars : ∀ c ∈ identifierCore raw.toList, IsIdentifierChar c :=
    fun c => isIdentifierChar_of_mem_core
  have hsingle : Single (identifierCore raw.toList) :=
    List.IsChain.infix (single_squeeze _) (infix_trimUnderscores _)
  have hfirst : (identifierCore raw.toList).head? ≠ some '_' := head?_trimUnderscores _
  have hlast : (identifierCore raw.toList).getLast? ≠ some '_' := getLast?_trimUnderscores _
  have hne : identifierCore raw.toList ≠ [] := by
    rwa [ne_eq, identifierCore_eq_nil_iff, ← identifier_eq_empty_iff]
  rw [identifier_eq, String.toList_ofList]
  obtain ⟨c, rest, hcore⟩ := List.exists_cons_of_ne_nil hne
  rw [hcore] at hchars hsingle hfirst hlast ⊢
  have hc : c ≠ '_' := fun heq => hfirst (by rw [heq, List.head?_cons])
  by_cases hdigit : c.isDigit = true
  · rw [guardDigit, if_pos (by simpa using hdigit)]
    exact {
      chars := List.forall_mem_cons.mpr ⟨.inr (.inr rfl), hchars⟩
      single := List.isChain_cons_cons.mpr ⟨fun hboth => hc hboth.2, hsingle⟩
      last := by rwa [List.getLast?_cons_cons]
      first := .inr ⟨c, rest, rfl, hdigit⟩ }
  · rw [guardDigit, if_neg (by simpa using hdigit)]
    have hlower : c.isLower = true :=
      (hchars c List.mem_cons_self).resolve_right fun hother => hother.elim hdigit hc
    exact { chars := hchars, single := hsingle, last := hlast, first := .inl ⟨c, rest, rfl, hlower⟩ }

theorem identifier_eq_self {name : String} (h : IsIdentifier name.toList) :
    identifier name = name := by
  have hsame : squeeze (name.toList.filterMap identifierChar?) = name.toList := by
    rw [List.filterMap_congr fun c hc => identifierChar?_eq_self (h.chars c hc), List.filterMap_some,
      squeeze_eq_self h.single]
  rw [identifier, hsame, ← String.toList_inj, String.toList_ofList]
  have hlast := h.last
  rcases h.first with ⟨c, rest, hcs, hlower⟩ | ⟨c, rest, hcs, hdigit⟩
  · have hrange := isLower_iff.mp hlower
    have hc : c ≠ '_' := by
      rintro rfl
      exact absurd hrange (by decide)
    have hdigit : ¬c.isDigit = true := by
      rw [isDigit_iff]
      omega
    rw [hcs] at hlast ⊢
    rw [trimUnderscores_eq_self (by simpa using hc) hlast, guardDigit, if_neg (by simpa using hdigit)]
  · -- The underscore is trimmed, and the digit gets it back.
    have hrange := isDigit_iff.mp hdigit
    have hc : c ≠ '_' := by
      rintro rfl
      exact absurd hrange (by decide)
    rw [hcs, List.getLast?_cons_cons] at hlast
    have htrim : trimUnderscores ('_' :: c :: rest) = c :: rest := by
      show trimUnderscores (c :: rest) = c :: rest
      exact trimUnderscores_eq_self (by simpa using hc) hlast
    rw [hcs, htrim, guardDigit, if_pos (by simpa using hdigit)]

/-- Identifiers are the words that are their own identifiers. -/
theorem identifier_identifier (raw : String) : identifier (identifier raw) = identifier raw := by
  by_cases h : identifier raw = ""
  · rw [h]
    rfl
  · exact identifier_eq_self (isIdentifier_identifier h)

example : identifier " My--Joker_!_" = "my_joker" ∧ identifier "9 Lives" = "_9_lives" ∧
    identifier "_9__LIVES" = "_9_lives" ∧ identifier "- ß -" = "" := by
  decide +kernel

/-- The slot of the variable that a text names: where the variable is declared, where an effect
writes it and where a condition tests it. -/
structure NamesSlot (raw name : String) : Prop where
  declared : ∀ v : UserVariable, v.name = raw → (Slot.ofVariable v).name = name
  written : ∀ e : Effect, e.kind.writesVariable = true →
    e.params.get? "variable_name" = some (.str raw) → e.target? = some name
  tested : ∀ (p : Params) (t : Trigger), p.get? "variable_name" = some (.str raw) →
    ConditionKind.internalVariable.subject? p t = some (.quantity (Slot.read name) 0)

/-- The slot that a text refers to as the value of an effect or of a condition. Among the effects
that are compiled together it is this slot that is captured for the text. -/
structure RefersTo (raw name : String) : Prop where
  effect : ∀ id hint registry captures, Resolved.ofValue (.str raw) id hint registry captures =
    { amount := (captures.get? name).elim (.stored name) .captured, reference := some name }
  condition : ∀ registry, Amount.ofOperand (.str raw) registry = .stored name
  captured : ∀ key, Capture.isStructural key = false → Capture.readName? (key, .str raw) = some name

theorem text?_of_get? {p : Params} {key raw : String} (hget : p.get? key = some (.str raw))
    (h : identifier raw ≠ "") : p.text? key = some (trim raw) := by
  have hne : trim raw ≠ "" := by
    intro hempty
    rw [← identifier_trim, hempty] at h
    exact h rfl
  simp [Params.text?, hget, Value.str?, nonblank?, hne]

theorem namesSlot_identifier {raw : String} (h : identifier raw ≠ "") :
    NamesSlot raw (identifier raw) where
  declared v hv := by rw [Slot.ofVariable, hv]
  written e hwrites hget := by
    simp [Effect.target?, hwrites, text?_of_get? hget h, identifier_trim, h]
  tested p t hget := by
    simp [ConditionKind.subject?, Subject.internalVariable?, text?_of_get? hget h, identifier_trim, h]

theorem refersTo_identifier {raw : String} (hmarked : Encoding.isMarked raw = false)
    (hnumber : (Value.str raw).number? = none) (h : identifier raw ≠ "") :
    RefersTo raw (identifier raw) where
  effect id hint registry captures := by
    simp only [Resolved.ofValue, hmarked, hnumber, Resolved.ofReference, h, Bool.false_eq_true, if_false]
    cases captures.get? (identifier raw) <;> rfl
  condition registry := by
    simp [Amount.ofOperand, hmarked, hnumber, h]
  captured key hkey := by
    simp [Capture.readName?, hkey, hnumber, h]

theorem read?_of_first {c : Char} (h : c.isDigit = false ∧ c ≠ '-' ∧ c ≠ '+' ∧ c ≠ '.')
    (cs : List Char) : Binary64.read? (String.ofList (c :: cs)) = none := by
  obtain ⟨hdigit, hminus, hplus, hpoint⟩ := h
  have hsign : Binary64.takeSign (c :: cs) = (false, c :: cs) := by
    unfold Binary64.takeSign
    split <;> simp_all
  have hfraction : Binary64.takeFraction (c :: cs) = ([], c :: cs) := by
    unfold Binary64.takeFraction
    split <;> simp_all
  simp [Binary64.read?, hsign, hfraction, hdigit]

/-- An identifier starts with a letter or an underscore, as no number does. -/
theorem IsIdentifier.read? {name : String} (h : IsIdentifier name.toList) :
    Binary64.read? name = none := by
  rw [← String.ofList_toList (s := name)]
  rcases h.first with ⟨c, rest, hcs, hlower⟩ | ⟨c, rest, hcs, -⟩
  · rw [hcs]
    have hrange := isLower_iff.mp hlower
    refine read?_of_first ⟨?_, ?_, ?_, ?_⟩ rest
    · rw [Bool.eq_false_iff, ne_eq, isDigit_iff]
      omega
    all_goals
      rintro rfl
      exact absurd hrange (by decide)
  · rw [hcs]
    exact read?_of_first (by decide) _

theorem IsIdentifier.isBlank_eq_false {cs : List Char} (h : IsIdentifier cs) :
    ∀ c ∈ cs, isBlank c = false := by
  intro c hc
  have hchar := h.chars c hc
  rw [IsIdentifierChar, isLower_iff, isDigit_iff, ← Char.toNat_inj] at hchar
  have hunderscore : '_'.toNat = 95 := rfl
  rw [Bool.eq_false_iff]
  simp only [isBlank, ne_eq, Bool.or_eq_true, Bool.and_eq_true, decide_eq_true_eq, beq_iff_eq]
  omega

theorem IsIdentifier.trim_eq_self {name : String} (h : IsIdentifier name.toList) :
    trim name = name := by
  have hblank := h.isBlank_eq_false
  have hstart : trimStart name.toList = name.toList := by
    rw [trimStart, List.dropWhile_eq_self_iff]
    intro hpos
    simp [hblank _ (List.getElem_mem hpos)]
  have hend : trimEnd name.toList = name.toList := by
    simpa [trimEnd] using Encoding.trimEnd_append hblank []
  rw [trim, hstart, hend, String.ofList_toList]

/-- The marks of encodings end in colons. -/
theorem IsIdentifier.isMarked_eq_false {name : String} (h : IsIdentifier name.toList) :
    Encoding.isMarked name = false := by
  have hcolon : ':' ∉ name.toList := fun hmem => absurd (h.chars _ hmem) (by decide)
  rw [Bool.eq_false_iff, ne_eq, Encoding.isMarked_iff, h.trim_eq_self]
  simp only [startsWith, List.isPrefixOf_iff_prefix]
  rintro (hmark | hmark) <;> exact hcolon (hmark.subset (by decide))

theorem refersTo_self {raw : String} (h : identifier raw ≠ "") :
    RefersTo (identifier raw) (identifier raw) := by
  have hform := isIdentifier_identifier h
  have hnumber : (Value.str (identifier raw)).number? = none := by
    rw [Value.number?, hform.trim_eq_self, hform.read?]
  have hself := refersTo_identifier hform.isMarked_eq_false hnumber (by rwa [identifier_identifier])
  rwa [identifier_identifier] at hself

/-- Whatever the text, its identifier is empty exactly if it has no letter and no digit, and is a
word of the form of identifiers otherwise. It is its own identifier, and neither case nor blanks
around the text make a difference. So all texts with this identifier name one slot, and those
among them that are no numbers and no encodings refer to it, as the name of the slot itself
always does. -/
theorem spellings_share_slot (raw : String) :
    (identifier raw = "" ↔ ∀ c ∈ raw.toList, c.isAlphanum = false) ∧
    (identifier raw = "" ∨ IsIdentifier (identifier raw).toList) ∧
    identifier (identifier raw) = identifier raw ∧
    identifier (lowerAscii raw) = identifier raw ∧
    identifier (trim raw) = identifier raw ∧
    (identifier raw ≠ "" → RefersTo (identifier raw) (identifier raw) ∧
      ∀ spelling, identifier spelling = identifier raw →
        NamesSlot spelling (identifier raw) ∧
        (Encoding.isMarked spelling = false → (Value.str spelling).number? = none →
          RefersTo spelling (identifier raw))) := by
  refine ⟨identifier_eq_empty_iff raw, ?_, identifier_identifier raw, identifier_lowerAscii raw,
    identifier_trim raw, fun h => ⟨refersTo_self h, fun spelling hsame => ?_⟩⟩
  · exact (Decidable.em _).imp_right isIdentifier_identifier
  · rw [← hsame] at h ⊢
    exact ⟨namesSlot_identifier h, fun hmarked hnumber => refersTo_identifier hmarked hnumber h⟩

end Text

end JokerRules
