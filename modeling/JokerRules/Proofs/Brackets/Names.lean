import Mathlib
import JokerRules.Capture
import JokerRules.Draft
import JokerRules.Proofs.Brackets.Joiners

/-! Names and numbers. Identifiers and number literals are plain, and number literals have no joiner
outside brackets. -/

namespace JokerRules

open Text Brackets

namespace Brackets

theorem classOf_plain {c : Char}
    (h : c.toNat ∈ [45, 46, 95] ∨ (48 ≤ c.toNat ∧ c.toNat ≤ 57) ∨ (65 ≤ c.toNat ∧ c.toNat ≤ 90) ∨
      (97 ≤ c.toNat ∧ c.toNat ≤ 122)) : classOf c = .plain := by
  simp only [List.mem_cons, List.not_mem_nil, or_false] at h
  unfold classOf
  split <;> first | rfl | omega

theorem solid_char {c : Char}
    (h : c.toNat ∈ [45, 46, 95] ∨ (48 ≤ c.toNat ∧ c.toNat ≤ 57) ∨ (65 ≤ c.toNat ∧ c.toNat ≤ 90) ∨
      (97 ≤ c.toNat ∧ c.toNat ≤ 122)) : classOf c = .plain ∧ isSeparator c = false := by
  have hclass := classOf_plain h
  simp only [List.mem_cons, List.not_mem_nil, or_false] at h
  have hcomma : c ≠ ',' := by
    rintro rfl
    revert h
    decide
  have hblank : isBlank c = false := by
    simp only [isBlank, Bool.or_eq_false_iff, Bool.and_eq_false_iff, decide_eq_false_iff_not,
      beq_eq_false_iff_ne]
    omega
  exact ⟨hclass, by simp [isSeparator, standsAlone, hclass, hcomma, hblank]⟩

theorem Solid.plain {text : String} (h : Solid text) : Plain text :=
  plain_iff.mpr fun c hc => (h c hc).1

theorem toNat_digit {c : Char} (h : c.isDigit = true) : 48 ≤ c.toNat ∧ c.toNat ≤ 57 :=
  Char.isDigit_iff_toNat.mp h

theorem toNat_toLower (c : Char) :
    c.toLower.toNat = if 65 ≤ c.toNat ∧ c.toNat ≤ 90 then c.toNat + 32 else c.toNat := by
  unfold Char.toLower
  split
  · next h =>
    have h1 : 65 ≤ c.val.toNat := UInt32.le_iff_toNat_le.mp h.1
    have h2 : c.val.toNat ≤ 90 := UInt32.le_iff_toNat_le.mp h.2
    have hdiff : ('a'.val - 'A'.val).toNat = 32 := rfl
    have hsum : (c.val + ('a'.val - 'A'.val)).toNat = c.val.toNat + 32 := by
      rw [UInt32.toNat_add, hdiff]
      omega
    exact hsum.trans (if_pos ⟨h1, h2⟩).symm
  · next h =>
    have hc : ¬ (65 ≤ c.toNat ∧ c.toNat ≤ 90) := fun hr =>
      h ⟨UInt32.le_iff_toNat_le.mpr hr.1, UInt32.le_iff_toNat_le.mpr hr.2⟩
    exact (if_neg hc).symm

theorem classOf_toLower (c : Char) : classOf c.toLower = classOf c := by
  have hlower := toNat_toLower c
  split at hlower
  · rw [classOf_plain (by omega), classOf_plain (by omega)]
  · rw [classOf, hlower, classOf]

theorem mem_squeeze {c : Char} {cs : List Char} (h : c ∈ squeeze cs) : c ∈ cs := by
  fun_induction squeeze cs with
  | case1 => exact h
  | case2 d cs _ ih => exact List.mem_cons_of_mem _ (ih h)
  | case3 d cs _ ih =>
    rcases List.mem_cons.mp h with rfl | h
    · exact List.mem_cons_self
    · exact List.mem_cons_of_mem _ (ih h)

theorem mem_trimUnderscores {c : Char} {cs : List Char} (h : c ∈ trimUnderscores cs) :
    c ∈ cs := by
  have h1 := (List.dropWhile_sublist _).subset (List.mem_reverse.mp h)
  exact (List.dropWhile_sublist _).subset (List.mem_reverse.mp h1)

theorem mem_identifier {raw : String} {c : Char} (h : c ∈ (identifier raw).toList) :
    c.toNat = 95 ∨ (48 ≤ c.toNat ∧ c.toNat ≤ 57) ∨ (97 ≤ c.toNat ∧ c.toNat ≤ 122) := by
  have hchars : ∀ d ∈ raw.toList.filterMap identifierChar?,
      d.toNat = 95 ∨ (48 ≤ d.toNat ∧ d.toNat ≤ 57) ∨ (97 ≤ d.toNat ∧ d.toNat ≤ 122) := by
    intro d hd
    obtain ⟨e, -, he⟩ := List.mem_filterMap.mp hd
    unfold identifierChar? at he
    split at he
    · next halnum =>
      cases he
      have hrange : (65 ≤ e.toNat ∧ e.toNat ≤ 90) ∨ (97 ≤ e.toNat ∧ e.toNat ≤ 122) ∨
          (48 ≤ e.toNat ∧ e.toNat ≤ 57) := by
        simpa [Char.isAlphanum, Char.isAlpha, Char.isUpper, Char.isLower, Char.isDigit,
          UInt32.le_iff_toNat_le, or_assoc] using halnum
      rw [toNat_toLower]
      split <;> omega
    · split at he
      · cases he
        exact .inl rfl
      · cases he
  rw [identifier, String.toList_ofList, guardDigit] at h
  split at h
  · rcases List.mem_cons.mp h with rfl | h
    · exact .inl rfl
    · exact hchars c (mem_squeeze (mem_trimUnderscores h))
  · exact hchars c (mem_squeeze (mem_trimUnderscores h))

theorem solid_identifier (raw : String) : Solid (identifier raw) := by
  intro c hc
  have hrange := mem_identifier hc
  exact solid_char (by simp; omega)

theorem plain_identifier (raw : String) : Plain (identifier raw) :=
  (solid_identifier raw).plain

theorem mem_digits {n : Nat} {c : Char} (h : c ∈ Nat.toDigits 10 n) : 48 ≤ c.toNat ∧ c.toNat ≤ 57 :=
  toNat_digit (Nat.isDigit_of_mem_toDigits (by decide) (by decide) h)

/-- Digits, points and signs are no letters. -/
theorem operand_numeral {cs : List Char}
    (h : ∀ c ∈ cs, c.toNat ∈ [45, 46] ∨ (48 ≤ c.toNat ∧ c.toNat ≤ 57)) :
    Operand (String.ofList cs) := by
  refine operand_letterless fun c hc => ?_
  have hrange := h c hc
  simp only [List.mem_cons, List.not_mem_nil, or_false] at hrange
  obtain ⟨hclass, hseparator⟩ := solid_char (c := c) (by simp; omega)
  refine ⟨hclass, hseparator, fun hletter => ?_⟩
  simp only [joinerLetters, List.mem_cons, List.not_mem_nil, or_false] at hletter
  rcases hletter with rfl | rfl | rfl | rfl | rfl <;> revert hrange <;> decide

theorem toList_toString_nat (n : Nat) : (toString n).toList = Nat.toDigits 10 n := by
  simp

theorem solid_toString_nat (n : Nat) : Solid (toString n) := by
  intro c hc
  exact solid_char (.inr (.inl (mem_digits (toList_toString_nat n ▸ hc))))

theorem plain_toString_nat (n : Nat) : Plain (toString n) :=
  (solid_toString_nat n).plain

theorem operand_toString_nat (n : Nat) : Operand (toString n) := by
  rw [← String.ofList_toList (s := toString n), toList_toString_nat]
  exact operand_numeral fun c hc => .inr (mem_digits hc)

theorem operand_toString_int (n : Int) : Operand (toString n) := by
  cases n with
  | ofNat n => exact operand_toString_nat n
  | negSucc n => exact operand_joined [.fixed _, .word _ (solid_toString_nat (n + 1))] rfl

theorem mem_positional {coefficient : Nat} {exponent : Int} {c : Char}
    (h : c ∈ Binary64.positional coefficient exponent) :
    c.toNat ∈ [45, 46] ∨ (48 ≤ c.toNat ∧ c.toNat ≤ 57) := by
  have hzero : ∀ n, ∀ c ∈ List.replicate n '0', 48 ≤ c.toNat ∧ c.toNat ≤ 57 := by
    intro n c hc
    rw [List.eq_of_mem_replicate hc]
    decide
  simp only [Binary64.positional] at h
  split at h
  · rcases List.mem_append.mp h with h | h
    · exact .inr (mem_digits h)
    · exact .inr (hzero _ c h)
  · split at h
    · rcases List.mem_append.mp h with h | h
      · exact .inr (mem_digits (List.mem_of_mem_take h))
      · rcases List.mem_cons.mp h with rfl | h
        · exact .inl (by decide)
        · exact .inr (mem_digits (List.mem_of_mem_drop h))
    · simp only [List.mem_cons, List.mem_append] at h
      rcases h with rfl | rfl | h | h
      · exact .inr (by decide)
      · exact .inl (by decide)
      · exact .inr (hzero _ c h)
      · exact .inr (mem_digits h)

theorem operand_number (x : Binary64) : Operand x.literal := by
  have hdigits : ∀ c ∈ x.magnitudeDigits, c.toNat ∈ [45, 46] ∨ (48 ≤ c.toNat ∧ c.toNat ≤ 57) := by
    intro c hc
    unfold Binary64.magnitudeDigits at hc
    split at hc
    · rw [List.mem_singleton.mp hc]
      exact .inr (by decide)
    · exact mem_positional hc
  unfold Binary64.literal
  split
  · exact operand_fixed rfl
  split
  · split <;> exact operand_fixed rfl
  split
  · exact operand_numeral (List.forall_mem_cons.mpr ⟨.inl (by decide), hdigits⟩)
  · exact operand_numeral hdigits

theorem operand_literal (v : Value) : Operand v.literal := by
  cases v with
  | bool b => cases b <;> exact operand_fixed rfl
  | int n => exact operand_toString_int n.toInt
  | real x => exact operand_number x
  | str s => exact operand_quote s

theorem neutral_literal (v : Value) : Neutral v.literal :=
  (operand_literal v).neutral

theorem plain_nth {stem : String} (h : Plain stem) (n : Nat) : Plain (Names.nth stem n) := by
  unfold Names.nth
  split
  · exact h
  · exact h.append (plain_toString_nat n)

theorem plain_read {name : String} (h : Plain name) : Plain (Slot.read name) :=
  (plain_fixed (by decide)).append h

theorem operand_read {name : String} (h : Solid name) : Operand (Slot.read name) :=
  operand_joined [.fixed _, .word _ h] rfl

end Brackets

end JokerRules
