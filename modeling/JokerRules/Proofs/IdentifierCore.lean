import JokerRules.Condition.Guard
import JokerRules.Proofs.Brackets.Values
import JokerRules.Proofs.EncodedFields

/-! What an identifier is made from. The characters of a name are mapped one by one, runs of
underscores become one underscore, and those at the ends go; case and blanks around the name make no
difference. -/

namespace JokerRules

open Text

namespace Text

def IsIdentifierChar (c : Char) : Prop :=
  c.isLower = true ∨ c.isDigit = true ∨ c = '_'

instance (c : Char) : Decidable (IsIdentifierChar c) :=
  inferInstanceAs (Decidable (_ ∨ _ ∨ _))

theorem isLower_iff {c : Char} : c.isLower = true ↔ 97 ≤ c.toNat ∧ c.toNat ≤ 122 := by
  simp [Char.isLower, UInt32.le_iff_toNat_le]

theorem isDigit_iff {c : Char} : c.isDigit = true ↔ 48 ≤ c.toNat ∧ c.toNat ≤ 57 :=
  Char.isDigit_iff_toNat

theorem isAlphanum_iff {c : Char} : c.isAlphanum = true ↔ (65 ≤ c.toNat ∧ c.toNat ≤ 90) ∨
    (97 ≤ c.toNat ∧ c.toNat ≤ 122) ∨ (48 ≤ c.toNat ∧ c.toNat ≤ 57) := by
  simp [Char.isAlphanum, Char.isAlpha, Char.isUpper, Char.isLower, Char.isDigit,
    UInt32.le_iff_toNat_le, or_assoc]

theorem isAlphanum_toLower (c : Char) : c.toLower.isAlphanum = c.isAlphanum := by
  rw [Bool.eq_iff_iff, isAlphanum_iff, isAlphanum_iff, Brackets.toNat_toLower]
  split <;> omega

theorem toLower_eq_self {c : Char} (h : ¬(65 ≤ c.toNat ∧ c.toNat ≤ 90)) : c.toLower = c := by
  apply Char.toNat_inj.mp
  rw [Brackets.toNat_toLower, if_neg h]

theorem identifierChar?_alphanum {c : Char} (h : c.isAlphanum = true) :
    identifierChar? c = some c.toLower := by
  rw [identifierChar?, if_pos h]

theorem identifierChar?_blank {c : Char} (h : isBlank c = true) : identifierChar? c = some '_' := by
  have hother : ¬c.isAlphanum = true := by
    rw [isAlphanum_iff]
    simp only [isBlank, Bool.or_eq_true, Bool.and_eq_true, decide_eq_true_eq, beq_iff_eq] at h
    omega
  rw [identifierChar?, if_neg hother, if_pos (by simp [h])]

theorem identifierChar?_eq_self {c : Char} (h : IsIdentifierChar c) : identifierChar? c = some c := by
  have hword : c = '_' ∨ c.isAlphanum = true ∧ ¬(65 ≤ c.toNat ∧ c.toNat ≤ 90) := by
    rw [isAlphanum_iff]
    rcases h with h | h | h
    · have := isLower_iff.mp h
      omega
    · have := isDigit_iff.mp h
      omega
    · exact .inl h
  rcases hword with rfl | ⟨halphanum, hlower⟩
  · rfl
  · rw [identifierChar?_alphanum halphanum, toLower_eq_self hlower]

/-- A character gives an underscore or nothing, unless it is a letter or a digit. -/
theorem identifierChar?_eq_some {c d : Char} (h : identifierChar? c = some d) :
    d = '_' ∧ c.isAlphanum = false ∨
      (d.isLower = true ∨ d.isDigit = true) ∧ d ≠ '_' ∧ c.isAlphanum = true := by
  unfold identifierChar? at h
  split at h
  · next halphanum =>
    obtain rfl := Option.some.inj h
    have hrange := isAlphanum_iff.mp halphanum
    rw [isLower_iff, isDigit_iff, ne_eq, ← Char.toNat_inj, Brackets.toNat_toLower]
    refine .inr ⟨?_, ?_, halphanum⟩
    · split <;> omega
    · have hunderscore : '_'.toNat = 95 := rfl
      split <;> omega
  · next hother =>
    split at h
    · exact .inl ⟨(Option.some.inj h).symm, by simpa using hother⟩
    · cases h

theorem identifierChar?_toLower (c : Char) : identifierChar? c.toLower = identifierChar? c := by
  by_cases h : c.isAlphanum = true
  · have htwice : c.toLower.toLower = c.toLower := by
      apply toLower_eq_self
      rw [Brackets.toNat_toLower]
      split <;> omega
    rw [identifierChar?_alphanum h, identifierChar?_alphanum (isAlphanum_toLower c ▸ h), htwice]
  · rw [toLower_eq_self fun hupper => h (isAlphanum_iff.mpr (.inl hupper))]

/-- No two underscores stand in a row. -/
def Single (cs : List Char) : Prop :=
  cs.IsChain fun a b => ¬(a = '_' ∧ b = '_')

theorem head?_squeeze (cs : List Char) : (squeeze cs).head? = cs.head? := by
  fun_induction squeeze cs with
  | case1 => rfl
  | case2 c cs h ih =>
    simp only [Bool.and_eq_true, decide_eq_true_eq] at h
    rw [ih, h.2, List.head?_cons, h.1]
  | case3 c cs _ ih => rfl

theorem single_squeeze (cs : List Char) : Single (squeeze cs) := by
  fun_induction squeeze cs with
  | case1 => exact .nil
  | case2 c cs _ ih => exact ih
  | case3 c cs h ih =>
    refine List.isChain_cons.mpr ⟨fun d hd hboth => h ?_, ih⟩
    rw [head?_squeeze, Option.mem_def] at hd
    simp [hboth.1, hd, hboth.2]

theorem squeeze_eq_self {cs : List Char} (h : Single cs) : squeeze cs = cs := by
  induction cs with
  | nil => rfl
  | cons c cs ih =>
    obtain ⟨hfirst, hrest⟩ := List.isChain_cons.mp h
    have hkeep : ¬(c = '_' && cs.head? = some '_') = true := by
      simp only [Bool.and_eq_true, decide_eq_true_eq]
      exact fun hboth => hfirst '_' hboth.2 ⟨hboth.1, rfl⟩
    rw [squeeze, if_neg hkeep, ih hrest]

theorem mem_squeeze_iff {c : Char} {cs : List Char} : c ∈ squeeze cs ↔ c ∈ cs := by
  refine ⟨Brackets.mem_squeeze, fun h => ?_⟩
  fun_induction squeeze cs with
  | case1 => exact h
  | case2 d cs hd ih =>
    simp only [Bool.and_eq_true, decide_eq_true_eq] at hd
    rcases List.mem_cons.mp h with rfl | h
    · exact ih (hd.1 ▸ List.mem_of_mem_head? hd.2)
    · exact ih h
  | case3 d cs _ ih =>
    rcases List.mem_cons.mp h with rfl | h
    · exact List.mem_cons_self
    · exact List.mem_cons_of_mem _ (ih h)

theorem squeeze_concat (cs : List Char) :
    squeeze (cs ++ ['_']) = squeeze cs ∨ squeeze (cs ++ ['_']) = squeeze cs ++ ['_'] := by
  have hstep : ∀ c d ds, squeeze (c :: d :: ds) =
      if c = '_' ∧ d = '_' then squeeze (d :: ds) else c :: squeeze (d :: ds) := by
    intro c d ds
    simp [squeeze]
  induction cs with
  | nil => exact .inr rfl
  | cons c cs ih =>
    cases cs with
    | nil =>
      by_cases hc : c = '_'
      · exact .inl (by simp [squeeze, hc])
      · exact .inr (by simp [squeeze, hc])
    | cons d ds =>
      rw [List.cons_append, List.cons_append, hstep, hstep]
      split
      · exact ih
      · exact ih.imp (congrArg (c :: ·)) (congrArg (c :: ·))

theorem trimUnderscores_eq (cs : List Char) :
    trimUnderscores cs = (cs.dropWhile isUnderscore).rdropWhile isUnderscore :=
  rfl

theorem infix_trimUnderscores (cs : List Char) : trimUnderscores cs <:+: cs :=
  (List.rdropWhile_prefix _ _).isInfix.trans (List.dropWhile_suffix _).isInfix

theorem trimUnderscores_eq_nil_iff {cs : List Char} :
    trimUnderscores cs = [] ↔ ∀ c ∈ cs, c = '_' := by
  rw [trimUnderscores_eq, List.rdropWhile_eq_nil_iff]
  constructor
  · intro h c hc
    rw [← List.takeWhile_append_dropWhile (p := isUnderscore) (l := cs)] at hc
    rcases List.mem_append.mp hc with hc | hc
    · simpa [isUnderscore] using List.mem_takeWhile_imp hc
    · simpa [isUnderscore] using h c hc
  · intro h c hc
    simpa [isUnderscore] using h c ((List.dropWhile_suffix _).subset hc)

theorem head?_trimUnderscores (cs : List Char) : (trimUnderscores cs).head? ≠ some '_' := by
  intro h
  obtain ⟨rest, hrest⟩ := List.rdropWhile_prefix isUnderscore (cs.dropWhile isUnderscore)
  have hhead : (cs.dropWhile isUnderscore).head? = some '_' := by
    rw [← hrest, List.head?_append, ← trimUnderscores_eq, h]
    rfl
  have hnot := List.head?_dropWhile_not isUnderscore cs
  rw [hhead] at hnot
  simp [isUnderscore] at hnot

theorem getLast?_trimUnderscores (cs : List Char) : (trimUnderscores cs).getLast? ≠ some '_' := by
  intro h
  have hne : trimUnderscores cs ≠ [] := by
    intro hnil
    simp [hnil] at h
  rw [List.getLast?_eq_some_getLast hne, Option.some.injEq] at h
  exact List.rdropWhile_last_not isUnderscore (cs.dropWhile isUnderscore) hne (decide_eq_true h)

theorem trimUnderscores_eq_self {cs : List Char} (hfirst : cs.head? ≠ some '_')
    (hlast : cs.getLast? ≠ some '_') : trimUnderscores cs = cs := by
  have hfront : cs.dropWhile isUnderscore = cs := by
    rw [List.dropWhile_eq_self_iff]
    intro hpos
    simpa [isUnderscore, List.head?_eq_getElem?, List.getElem?_eq_getElem hpos] using hfirst
  rw [trimUnderscores_eq, hfront, List.rdropWhile_eq_self_iff]
  intro hne
  simpa [isUnderscore, List.getLast?_eq_some_getLast hne] using hlast

theorem trimUnderscores_concat (cs : List Char) :
    trimUnderscores (cs ++ ['_']) = trimUnderscores cs := by
  rw [trimUnderscores_eq, trimUnderscores_eq, List.dropWhile_append]
  split
  · next h =>
    rw [List.isEmpty_iff.mp h]
    rfl
  · exact List.rdropWhile_concat_pos _ _ _ rfl

/-- The identifier before a leading digit is guarded. -/
def identifierCore (cs : List Char) : List Char :=
  trimUnderscores (squeeze (cs.filterMap identifierChar?))

theorem identifier_eq (raw : String) :
    identifier raw = String.ofList (guardDigit (identifierCore raw.toList)) :=
  rfl

theorem identifierCore_eq_nil_iff {cs : List Char} :
    identifierCore cs = [] ↔ ∀ c ∈ cs, c.isAlphanum = false := by
  rw [identifierCore, trimUnderscores_eq_nil_iff]
  simp only [mem_squeeze_iff, List.mem_filterMap, forall_exists_index, and_imp]
  constructor
  · intro h c hc
    rw [Bool.eq_false_iff]
    intro halphanum
    have hchar := identifierChar?_alphanum halphanum
    rcases identifierChar?_eq_some hchar with hother | hword
    · exact Bool.false_ne_true (hother.2.symm.trans halphanum)
    · exact hword.2.1 (h _ c hc hchar)
  · intro h d c hc hd
    rcases identifierChar?_eq_some hd with hunderscore | hword
    · exact hunderscore.1
    · exact absurd hword.2.2 (by simp [h c hc])

theorem identifierCore_blank_cons {c : Char} (h : isBlank c = true) (cs : List Char) :
    identifierCore (c :: cs) = identifierCore cs := by
  rw [identifierCore, List.filterMap_cons, identifierChar?_blank h, squeeze]
  split <;> rfl

theorem identifierCore_concat_blank {c : Char} (h : isBlank c = true) (cs : List Char) :
    identifierCore (cs ++ [c]) = identifierCore cs := by
  have hchar : [c].filterMap identifierChar? = ['_'] := by simp [identifierChar?_blank h]
  rw [identifierCore, List.filterMap_append, hchar]
  rcases squeeze_concat (cs.filterMap identifierChar?) with hsame | hmore
  · rw [hsame, identifierCore]
  · rw [hmore, trimUnderscores_concat, identifierCore]

theorem identifierCore_trimStart (cs : List Char) :
    identifierCore (trimStart cs) = identifierCore cs := by
  induction cs with
  | nil => rfl
  | cons c cs ih =>
    rw [trimStart, List.dropWhile_cons]
    split
    · next hblank => rw [identifierCore_blank_cons hblank, ← ih, trimStart]
    · rfl

theorem identifierCore_trimEnd (cs : List Char) :
    identifierCore (trimEnd cs) = identifierCore cs := by
  show identifierCore (cs.rdropWhile isBlank) = identifierCore cs
  induction cs using List.reverseRecOn with
  | nil => rfl
  | append_singleton cs c ih =>
    rw [List.rdropWhile_concat]
    split
    · next hblank => rw [ih, identifierCore_concat_blank hblank]
    · rfl

theorem identifier_lowerAscii (raw : String) : identifier (lowerAscii raw) = identifier raw := by
  have hchars : (raw.toList.map Char.toLower).filterMap identifierChar? =
      raw.toList.filterMap identifierChar? := by
    rw [List.filterMap_map]
    exact List.filterMap_congr fun c _ => identifierChar?_toLower c
  rw [identifier, lowerAscii, String.toList_ofList, hchars, identifier]

theorem identifier_trim (raw : String) : identifier (trim raw) = identifier raw := by
  rw [identifier_eq, trim, String.toList_ofList, identifierCore_trimEnd, identifierCore_trimStart,
    identifier_eq]

theorem identifier_eq_empty_iff (raw : String) :
    identifier raw = "" ↔ ∀ c ∈ raw.toList, c.isAlphanum = false := by
  rw [identifier_eq, ← identifierCore_eq_nil_iff, guardDigit, String.ofList_eq_empty_iff]
  split
  · next hdigit =>
    have hne : identifierCore raw.toList ≠ [] := by
      intro hnil
      simp [hnil] at hdigit
    simp [hne]
  · rfl

end Text

end JokerRules
