import JokerRules.Proofs.Evaluation
import Mathlib.Data.Nat.Log
import Mathlib.Tactic.FieldSimp
import Mathlib.Tactic.Linarith
import Mathlib.Tactic.NormNum
import Mathlib.Tactic.Positivity
import Mathlib.Tactic.Ring

/-! Numerals in positional notation. The value of the numeral is that of its digits, moved by the
exponent. -/

namespace JokerRules

theorem digitsValue_toDigits (n : Nat) : digitsValue (Nat.toDigits 10 n) = n :=
  Nat.ofDigitChars_ten_toDigits

theorem digitsValue_append (ds es : List Char) :
    digitsValue (ds ++ es) = digitsValue ds * 10 ^ es.length + digitsValue es := by
  have hfrom : ∀ (es : List Char) (n : Nat), es.foldl (fun n d => 10 * n + (d.toNat - '0'.toNat)) n =
      n * 10 ^ es.length + digitsValue es := by
    intro es
    induction es with
    | nil => simp [digitsValue]
    | cons e es ih =>
      intro n
      have hone : digitsValue (e :: es) = (e.toNat - '0'.toNat) * 10 ^ es.length + digitsValue es := by
        rw [digitsValue, List.foldl_cons, ih]
        simp
      rw [List.foldl_cons, ih, hone, List.length_cons, pow_succ]
      ring
  rw [digitsValue, List.foldl_append, hfrom]
  rfl

theorem digitsValue_zeros (n : Nat) : digitsValue (List.replicate n '0') = 0 := by
  induction n with
  | zero => rfl
  | succ n ih =>
    rw [List.replicate_succ', digitsValue_append, ih]
    rfl

namespace Binary64

theorem isDigit_toDigits {n : Nat} {c : Char} (h : c ∈ Nat.toDigits 10 n) : c.isDigit = true :=
  Nat.isDigit_of_mem_toDigits (by decide) (by decide) h

open Expressions in
theorem numeral?_point {whole fraction : List Char} (hwhole : ∀ c ∈ whole, c.isDigit = true)
    (hfraction : ∀ c ∈ fraction, c.isDigit = true) :
    numeral? (whole ++ '.' :: fraction) =
      some ((digitsValue whole : ℚ) + digitsValue fraction / 10 ^ fraction.length) := by
  have hpoint : Char.isDigit '.' = false := by decide
  have hdrop : (whole ++ '.' :: fraction).dropWhile Char.isDigit = '.' :: fraction := by
    rw [List.dropWhile_append_of_pos hwhole, List.dropWhile_cons_of_neg (by simp [hpoint])]
  have htake : (whole ++ '.' :: fraction).takeWhile Char.isDigit = whole := by
    rw [List.takeWhile_append_of_pos hwhole, List.takeWhile_cons_of_neg (by simp [hpoint]),
      List.append_nil]
  rw [numeral?, hdrop]
  simp only [htake, List.all_eq_true.mpr hfraction, if_true]

open Expressions in
theorem numeral?_digits {ds : List Char} (h : ∀ c ∈ ds, c.isDigit = true) :
    numeral? ds = some (digitsValue ds : ℚ) := by
  have hdrop : (ds ++ []).dropWhile Char.isDigit = [].dropWhile Char.isDigit :=
    List.dropWhile_append_of_pos h
  rw [List.append_nil] at hdrop
  rw [numeral?, hdrop]
  rfl

open Expressions in
theorem numeral?_positional (c : Nat) (e : Int) :
    numeral? (positional c e) = some ((c : ℚ) * 10 ^ e) := by
  have hdigits : ∀ d ∈ Nat.toDigits 10 c, d.isDigit = true := fun _ => isDigit_toDigits
  have hzeros : ∀ n, ∀ d ∈ List.replicate n '0', d.isDigit = true := by
    intro n d hd
    rw [List.eq_of_mem_replicate hd]
    rfl
  simp only [positional]
  split
  · next hplaces =>
    obtain ⟨n, rfl⟩ : ∃ n : Nat, e = n := ⟨e.toNat, by omega⟩
    rw [numeral?_digits fun d hd => (List.mem_append.mp hd).elim (hdigits d) (hzeros _ d),
      digitsValue_append, digitsValue_zeros, digitsValue_toDigits]
    simp
  · next hplaces =>
    obtain ⟨n, rfl, hn⟩ : ∃ n : Nat, e = -n ∧ n ≠ 0 := ⟨(-e).toNat, by omega, by omega⟩
    rw [Int.neg_neg, Int.toNat_natCast] at hplaces ⊢
    rw [zpow_neg, zpow_natCast]
    have hten : (10 : ℚ) ^ n ≠ 0 := by positivity
    split
    · next hlt =>
      have hsplit := digitsValue_append ((Nat.toDigits 10 c).take ((Nat.toDigits 10 c).length - n))
        ((Nat.toDigits 10 c).drop ((Nat.toDigits 10 c).length - n))
      have hlength : ((Nat.toDigits 10 c).drop ((Nat.toDigits 10 c).length - n)).length = n := by
        rw [List.length_drop]
        omega
      rw [List.take_append_drop, digitsValue_toDigits, hlength] at hsplit
      have hvalue := congrArg (Nat.cast : Nat → ℚ) hsplit
      push_cast at hvalue
      rw [numeral?_point (fun d hd => hdigits d (List.mem_of_mem_take hd))
        (fun d hd => hdigits d (List.mem_of_mem_drop hd)), hlength, hvalue]
      congr 1
      field_simp
    · next hlt =>
      have hlength : (List.replicate (n - (Nat.toDigits 10 c).length) '0' ++
          Nat.toDigits 10 c).length = n := by
        rw [List.length_append, List.length_replicate]
        omega
      have hpoint := numeral?_point (hzeros 1) fun d (hd : d ∈ List.replicate
        (n - (Nat.toDigits 10 c).length) '0' ++ Nat.toDigits 10 c) =>
          (List.mem_append.mp hd).elim (hzeros _ d) (hdigits d)
      rw [hlength, digitsValue_append, digitsValue_zeros, digitsValue_zeros, digitsValue_toDigits]
        at hpoint
      refine hpoint.trans ?_
      push_cast
      congr 1
      field_simp
      ring

end Binary64

end JokerRules
