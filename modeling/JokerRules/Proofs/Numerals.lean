import JokerRules.Proofs.FewestDigits

/-! The value of a number as it is written in the generated code. The literal denotes the decimal
number that its digits stand for. -/

namespace JokerRules

namespace Binary64

/-- The value of the number as it is written. -/
def decimal (x : Binary64) : ℚ :=
  let magnitude : ℚ :=
    if x.isZero then 0 else x.interval.shortest.1 * 10 ^ x.interval.shortest.2
  if x.negative then -magnitude else magnitude

theorem decimal_eq_zero_iff {x : Binary64} : x.decimal = 0 ↔ x.isZero = true := by
  cases hx : x.isZero with
  | true => simp [decimal, hx]
  | false =>
    have hne : (x.interval.shortest.1 : ℚ) ≠ 0 := by exact_mod_cast shortest_ne_zero hx
    have hpow : (10 : ℚ) ^ x.interval.shortest.2 ≠ 0 := zpow_ne_zero _ (by norm_num)
    cases hnegative : x.negative <;> simp [decimal, hx, hnegative, hne, hpow]

open Expressions

/-- The expression that a literal is: a sign and digits. -/
def literalExpr (x : Binary64) : Expr :=
  if x.negative then .signed .minus (.number (-x.decimal)) else .number x.decimal

theorem eval_literalExpr (x : Binary64) (chance : Chance) (g : Game) :
    x.literalExpr.eval chance g = some [.number x.decimal] := by
  unfold literalExpr
  split
  · simp [Expr.eval, Sign.apply?]
  · rfl

theorem wordChar_of_isDigit {c : Char} (h : c.isDigit = true) : isPathChar c = true := by
  simp [isPathChar, Char.isAlphanum, h]

theorem mem_positional {c : Nat} {e : Int} {d : Char} (h : d ∈ positional c e) :
    d.isDigit = true ∨ d = '.' := by
  have hzero : Char.isDigit '0' = true := by decide
  simp only [positional] at h
  split at h
  · rcases List.mem_append.mp h with hd | hd
    · exact .inl (isDigit_toDigits hd)
    · exact .inl (List.eq_of_mem_replicate hd ▸ hzero)
  · split at h
    · rcases List.mem_append.mp h with hd | hd
      · exact .inl (isDigit_toDigits (List.mem_of_mem_take hd))
      · rcases List.mem_cons.mp hd with hd | hd
        · exact .inr hd
        · exact .inl (isDigit_toDigits (List.mem_of_mem_drop hd))
    · rcases List.mem_cons.mp h with hd | hd
      · exact .inl (hd ▸ hzero)
      · rcases List.mem_cons.mp hd with hd | hd
        · exact .inr hd
        · rcases List.mem_append.mp hd with hd | hd
          · exact .inl (List.eq_of_mem_replicate hd ▸ hzero)
          · exact .inl (isDigit_toDigits hd)

theorem exists_positional (c : Nat) (e : Int) :
    ∃ d ds, positional c e = d :: ds ∧ d.isDigit = true := by
  obtain ⟨d, ds, hds⟩ := List.exists_cons_of_ne_nil (Nat.toDigits_ne_nil (n := c) (b := 10))
  have hd : d.isDigit = true := isDigit_toDigits (n := c) (by simp [hds])
  simp only [positional, hds]
  split
  · exact ⟨d, _, rfl, hd⟩
  split
  · next hlt =>
    obtain ⟨k, hk⟩ : ∃ k, (d :: ds).length - (-e).toNat = k + 1 :=
      ⟨(d :: ds).length - (-e).toNat - 1, by omega⟩
    rw [hk, List.take_succ_cons]
    exact ⟨d, _, rfl, hd⟩
  · exact ⟨'0', _, rfl, rfl⟩

theorem magnitudeDigits_eq {x : Binary64} (h : x.isZero = false) :
    x.magnitudeDigits = positional x.interval.shortest.1 x.interval.shortest.2 := by
  simp [magnitudeDigits, h]

theorem exists_magnitudeDigits (x : Binary64) :
    ∃ d ds, x.magnitudeDigits = d :: ds ∧ d.isDigit = true := by
  cases hx : x.isZero with
  | true => exact ⟨'0', [], by simp [magnitudeDigits, hx], rfl⟩
  | false => exact magnitudeDigits_eq hx ▸ exists_positional _ _

theorem literal_eq {x : Binary64} (h : x.isFinite = true) :
    x.literal = String.ofList (if x.negative then '-' :: x.magnitudeDigits else x.magnitudeDigits) := by
  have hnan : x.isNan = false := by
    simp only [isFinite, bne_iff_ne] at h
    simp [isNan, h]
  unfold literal
  rw [hnan, h]
  cases x.negative <;> rfl

theorem literal_ne_nil {x : Binary64} (h : x.isFinite = true) : x.literal.toList ≠ [] := by
  obtain ⟨d, ds, hds, -⟩ := exists_magnitudeDigits x
  rw [literal_eq h, hds]
  cases x.negative <;> simp

/-- The digits of a number are one numeral. -/
theorem denotes_magnitude (x : Binary64) :
    amounts.Denotes operandLevel (String.ofList x.magnitudeDigits)
      (.number (if x.negative then -x.decimal else x.decimal)) := by
  cases hx : x.isZero with
  | true =>
    have hdecimal : (if x.negative then -x.decimal else x.decimal) = 0 := by
      rw [decimal_eq_zero_iff.mpr hx]
      simp
    rw [hdecimal, magnitudeDigits, hx, if_pos rfl]
    exact .number (List.all_eq_true.mp rfl) ⟨'0', [], rfl, rfl⟩ (by decide +kernel)
  | false =>
    have hdecimal : (if x.negative then -x.decimal else x.decimal) =
        x.interval.shortest.1 * 10 ^ x.interval.shortest.2 := by
      cases hnegative : x.negative <;> simp [decimal, hx, hnegative]
    rw [hdecimal, magnitudeDigits_eq hx]
    refine .number (fun d hd => ?_) (exists_positional _ _) (numeral?_positional _ _)
    rcases mem_positional hd with hdigit | rfl
    · exact wordChar_of_isDigit hdigit
    · rfl

theorem closing_notMem_literal {x : Binary64} (h : x.isFinite = true) : ')' ∉ x.literal.toList := by
  have hdigits : ')' ∉ x.magnitudeDigits := by
    cases hx : x.isZero with
    | true => simp [magnitudeDigits, hx]
    | false =>
      rw [magnitudeDigits_eq hx]
      intro hmem
      exact absurd (mem_positional hmem) (by decide)
  rw [literal_eq h]
  cases x.negative <;> simpa using hdigits

theorem denotes_literal {x : Binary64} (h : x.isFinite = true) :
    amounts.Denotes signLevel x.literal x.literalExpr := by
  have hmagnitude := denotes_magnitude x
  rw [literal_eq h, literalExpr]
  cases hnegative : x.negative with
  | false => simpa [hnegative] using hmagnitude.mono (by decide)
  | true =>
    rw [hnegative] at hmagnitude
    have hminus : amounts.Denotes signLevel _ _ := hmagnitude.minus le_rfl
    simpa using hminus

theorem isFinite_ofDecimal? {negative : Bool} {digits : List Char} {exponent : Int} {x : Binary64}
    (h : ofDecimal? negative digits exponent = some x) : x.isFinite = true := by
  have hzero : (zero negative).isFinite = true := rfl
  simp only [ofDecimal?] at h
  split at h
  · exact Option.some.inj h ▸ hzero
  split at h
  · exact nomatch h
  split at h
  · exact Option.some.inj h ▸ hzero
  · obtain ⟨hfinite, rfl⟩ := Option.ite_some_none_eq_some.mp h
    exact hfinite

theorem isFinite_read? {s : String} {x : Binary64} (h : read? s = some x) :
    x.isFinite = true := by
  simp only [read?] at h
  split at h
  · exact nomatch h
  · obtain ⟨exponent, -, hdecimal⟩ := Option.bind_eq_some_iff.mp h
    exact isFinite_ofDecimal? hdecimal

end Binary64

end JokerRules
