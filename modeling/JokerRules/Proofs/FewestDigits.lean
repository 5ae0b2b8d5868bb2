import JokerRules.Proofs.Positional

/-! The fewest digits for a number. Seventeen digits are enough to tell a number from its
neighbours, so what is not zero is not written as zero. -/

namespace JokerRules

namespace Binary64

theorem le_tensToReach {bound num den : Nat} (h : den ≤ num * 10 ^ bound) :
    den ≤ num * 10 ^ tensToReach bound num den := by
  induction bound generalizing num with
  | zero => exact h
  | succ bound ih =>
    unfold tensToReach
    split
    · next hle => simpa using hle
    · have hbound : den ≤ num * 10 * 10 ^ bound := by
        rw [mul_assoc, ← pow_succ']
        exact h
      have hnext := ih hbound
      rwa [mul_assoc, ← pow_succ'] at hnext

theorem pow_le_of_digitCount {n : Nat} (hn : n ≠ 0) : 10 ^ (digitCount n - 1) ≤ n := by
  by_cases hone : digitCount n - 1 = 0
  · rw [hone]
    omega
  · refine Nat.le_of_not_lt fun hlt => ?_
    have hle := (Nat.length_toDigits_le_iff (by decide) (Nat.pos_of_ne_zero hone)).mpr hlt
    have hcount : (Nat.toDigits 10 n).length = digitCount n := rfl
    omega

/-- The decade is not above the number. -/
theorem pow_decade_le {num den : Nat} (hden : 0 < den) (h : den ≤ num * 10 ^ 400) :
    (den : ℚ) * 10 ^ decade num den ≤ num := by
  unfold decade
  split
  · next hle =>
    have hquotient : num / den ≠ 0 := (Nat.div_pos hle hden).ne'
    have hcount : 0 < digitCount (num / den) := Nat.length_toDigits_pos
    obtain ⟨n, hn⟩ : ∃ n, digitCount (num / den) = n + 1 := ⟨_, (Nat.succ_pred hcount.ne').symm⟩
    have hpow := pow_le_of_digitCount hquotient
    rw [hn, Nat.add_sub_cancel] at hpow
    have hexp : ((digitCount (num / den) : Nat) : Int) - 1 = (n : Int) := by omega
    rw [hexp, zpow_natCast]
    calc (den : ℚ) * 10 ^ n ≤ den * (num / den : Nat) := by
          exact_mod_cast Nat.mul_le_mul_left den hpow
      _ ≤ num := by exact_mod_cast Nat.mul_div_le num den
  · have hreach := le_tensToReach h
    have hreach : (den : ℚ) ≤ num * 10 ^ tensToReach 400 num den := by exact_mod_cast hreach
    rw [zpow_neg, zpow_natCast, ← div_eq_mul_inv, div_le_iff₀ (by positivity)]
    exact hreach

theorem zpow_eq_div {b : ℚ} (hb : b ≠ 0) (n : Int) : b ^ n = b ^ n.toNat / b ^ (-n).toNat := by
  rw [← zpow_natCast, ← zpow_natCast, ← zpow_sub₀ hb]
  congr 1
  omega

/-- A grid that is finer than the interval is wide has a point in it. -/
theorem Interval.onGrid?_isSome {i : Interval} {k : Int}
    (h : (i.den : ℚ) * 10 ^ k < i.high - i.low) : (i.onGrid? k).isSome = true := by
  by_contra hnone
  have hwidth : ∃ q, q * (i.den * Nat.pow 10 k.toNat) ≤ i.low * Nat.pow 10 (-k).toNat ∧
      i.high * Nat.pow 10 (-k).toNat ≤ (q + 1) * (i.den * Nat.pow 10 k.toNat) := by
    simp only [Interval.onGrid?] at hnone
    split at hnone
    · simp at hnone
    split at hnone
    · simp at hnone
    next hlow hhigh =>
    refine ⟨i.value * Nat.pow 10 (-k).toNat / (i.den * Nat.pow 10 k.toNat), ?_, ?_⟩
    · simp only [hhigh, Bool.not_false, Bool.true_or, Bool.and_true, Bool.or_eq_true,
        decide_eq_true_eq, not_or] at hlow
      exact Nat.le_of_not_lt hlow.1
    · simp only [Bool.or_eq_true, decide_eq_true_eq, not_or] at hhigh
      exact Nat.le_of_not_lt hhigh.1
  obtain ⟨q, hlow, hhigh⟩ := hwidth
  have hup : (0 : ℚ) < 10 ^ (-k).toNat := by positivity
  rw [zpow_eq_div (by norm_num), mul_div_assoc', div_lt_iff₀ hup] at h
  have hlow : (q : ℚ) * (i.den * 10 ^ k.toNat) ≤ i.low * 10 ^ (-k).toNat := by exact_mod_cast hlow
  have hhigh : (i.high : ℚ) * 10 ^ (-k).toNat ≤ (q + 1) * (i.den * 10 ^ k.toNat) := by
    exact_mod_cast hhigh
  linarith

theorem Interval.onGrid?_ne_zero {i : Interval} {k : Int} {c : Nat} (hlow : 0 < i.low)
    (h : i.onGrid? k = some c) : c ≠ 0 := by
  simp only [Interval.onGrid?] at h
  split at h
  · next hin =>
    obtain rfl := Option.some.inj h
    have hpos : 0 < i.low * Nat.pow 10 (-k).toNat :=
      Nat.mul_pos hlow (Nat.pow_pos (by decide))
    simp only [Bool.and_eq_true, Bool.or_eq_true, decide_eq_true_eq, beq_iff_eq] at hin
    intro hzero
    rw [hzero] at hin
    rcases hin.1 with hlt | ⟨-, heq⟩ <;> omega
  · split at h
    · exact Option.some.inj h ▸ Nat.succ_ne_zero _
    · exact nomatch h

section Shortest

variable {x : Binary64}

theorem significand_lt (x : Binary64) : x.significand < 2 * hiddenBit := by
  unfold significand
  have hfraction := x.fraction.isLt
  split <;> omega

theorem significand_pos (hx : x.isZero = false) : 0 < x.significand := by
  unfold significand
  split
  · next hexp =>
    have hfraction : x.fraction ≠ 0 := by simpa [isZero, hexp] using hx
    exact Nat.pos_of_ne_zero fun hzero => hfraction (Fin.ext hzero)
  · have hhidden : 0 < hiddenBit := by decide
    omega

/-- Sixteen places below the leading digit the grid is finer than the interval. -/
theorem value_lt_interval (x : Binary64) :
    x.interval.value < 10 ^ 16 * (x.interval.high - x.interval.low) := by
  have hbit : hiddenBit = 4503599627370496 := rfl
  have hlt := significand_lt x
  have hscale : 0 < 1 <<< x.power.toNat := by
    rw [Nat.shiftLeft_eq]
    positivity
  simp only [interval]
  rw [← Nat.sub_mul, ← mul_assoc]
  refine Nat.mul_lt_mul_of_pos_right ?_ hscale
  split
  · next hbelow =>
    rw [Bool.and_eq_true, decide_eq_true_eq, decide_eq_true_eq] at hbelow
    have hexp : x.exponent ≠ 0 := by
      intro hzero
      rw [hzero] at hbelow
      exact absurd hbelow.2 (by decide)
    have hleast : x.significand = hiddenBit := by
      rw [significand, if_neg hexp, hbelow.1]
      rfl
    omega
  · omega

theorem interval_low_pos (hx : x.isZero = false) : 0 < x.interval.low := by
  have hpos := significand_pos hx
  simp only [interval]
  refine Nat.mul_pos ?_ (by rw [Nat.shiftLeft_eq]; positivity)
  split <;> omega

theorem den_le_interval (hx : x.isZero = false) :
    x.interval.den ≤ x.interval.value * 10 ^ 400 := by
  have hpower : (-x.power).toNat ≤ 1074 := by
    unfold power
    omega
  have hpos := significand_pos hx
  simp only [interval]
  rw [Nat.shiftLeft_eq, Nat.shiftLeft_eq, one_mul]
  have hten : ∀ m, ∀ n ≤ m, ∀ k ≤ 3 * n, 2 ^ k ≤ 10 ^ m := by
    intro m n hn k hk
    calc 2 ^ k ≤ 2 ^ (3 * n) := Nat.pow_le_pow_right (by decide) hk
      _ = (2 ^ 3) ^ n := pow_mul 2 3 n
      _ ≤ 10 ^ n := Nat.pow_le_pow_left (by decide) n
      _ ≤ 10 ^ m := Nat.pow_le_pow_right (by decide) hn
  have hscale : 1 ≤ 2 ^ x.power.toNat := Nat.one_le_two_pow
  calc 4 * 2 ^ (-x.power).toNat ≤ 4 * 10 ^ 400 :=
        Nat.mul_le_mul_left 4 (hten 400 358 (by decide) _ hpower)
    _ ≤ 4 * x.significand * 2 ^ x.power.toNat * 10 ^ 400 := by
        refine Nat.mul_le_mul_right _ ?_
        calc 4 = 4 * 1 * 1 := rfl
          _ ≤ 4 * x.significand * 2 ^ x.power.toNat := by gcongr; omega

theorem interval_den_pos (x : Binary64) : 0 < x.interval.den := by
  simp only [interval, Nat.shiftLeft_eq]
  positivity

theorem exists_grid (hx : x.isZero = false) :
    (x.interval.onGrid? (decade x.interval.value x.interval.den - 16)).isSome = true := by
  have hdecade := pow_decade_le (interval_den_pos x) (den_le_interval hx)
  have hwidth := value_lt_interval x
  have hlow : x.interval.low ≤ x.interval.high := by
    by_contra hlt
    have hzero : x.interval.high - x.interval.low = 0 := by omega
    rw [hzero] at hwidth
    omega
  have hwidth : (x.interval.value : ℚ) < 10 ^ 16 * (x.interval.high - x.interval.low) := by
    rw [← Nat.cast_sub hlow]
    exact_mod_cast hwidth
  refine Interval.onGrid?_isSome ?_
  rw [zpow_sub₀ (by norm_num), mul_div_assoc', div_lt_iff₀ (by positivity)]
  calc (x.interval.den : ℚ) * 10 ^ decade x.interval.value x.interval.den
      ≤ x.interval.value := hdecade
    _ < 10 ^ 16 * (x.interval.high - x.interval.low) := hwidth
    _ = (x.interval.high - x.interval.low) * 10 ^ (16 : Int) := by
        rw [mul_comm]
        rfl

/-- The shortest digits come from the first grid that has a point in the interval. -/
theorem shortest_cases (hx : x.isZero = false) :
    ∃ c n, x.interval.onGrid? (decade x.interval.value x.interval.den - (n : Nat)) = some c ∧
      (∀ m < n, x.interval.onGrid? (decade x.interval.value x.interval.den - (m : Nat)) = none) ∧
      x.interval.shortest =
        if c % 10 = 0 then (c / 10, decade x.interval.value x.interval.den - (n : Nat) + 1)
        else (c, decade x.interval.value x.interval.den - (n : Nat)) := by
  generalize htop : decade x.interval.value x.interval.den = top
  simp only [Interval.shortest, htop]
  cases hfind : ((List.range 17).map fun n => top - (n : Nat)).findSome? fun k =>
      (x.interval.onGrid? k).map fun c => (c, k) with
  | none =>
    have hmem : top - 16 ∈ (List.range 17).map fun n => top - (n : Nat) :=
      List.mem_map.mpr ⟨16, by decide, rfl⟩
    have hnone := Option.map_eq_none_iff.mp (List.findSome?_eq_none_iff.mp hfind _ hmem)
    have hsome := exists_grid hx
    rw [htop, hnone] at hsome
    exact nomatch hsome
  | some found =>
    rw [List.findSome?_map] at hfind
    obtain ⟨before, n, after, hrange, hfound, hbefore⟩ := List.findSome?_eq_some_iff.mp hfind
    obtain ⟨c, hc, rfl⟩ := Option.map_eq_some_iff.mp hfound
    refine ⟨c, n, hc, fun m hm => ?_, rfl⟩
    have hsorted := hrange ▸ List.pairwise_lt_range (n := 17)
    have hafter : ∀ b ∈ after, n < b :=
      (List.pairwise_cons.mp (List.pairwise_append.mp hsorted).2.1).1
    have hn : n < 17 := List.mem_range.mp (hrange ▸ by simp)
    have hmem : m ∈ before ++ n :: after := hrange ▸ List.mem_range.mpr (by omega)
    rcases List.mem_append.mp hmem with hmem | hmem
    · exact Option.map_eq_none_iff.mp (hbefore m hmem)
    · rcases List.mem_cons.mp hmem with rfl | hmem
      · omega
      · have hlt := hafter m hmem
        omega

theorem shortest_ne_zero (hx : x.isZero = false) : x.interval.shortest.1 ≠ 0 := by
  obtain ⟨c, n, hgrid, -, hshortest⟩ := shortest_cases hx
  have hne := Interval.onGrid?_ne_zero (interval_low_pos hx) hgrid
  rw [hshortest]
  split
  · show c / 10 ≠ 0
    omega
  · exact hne

end Shortest

end Binary64

end JokerRules
