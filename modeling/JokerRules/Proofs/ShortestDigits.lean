import JokerRules.Proofs.Rounding

/-! The digits that are written for a number. Their value lies among the reals that round to the
number, and for a whole number that is written in full it is the number. -/

namespace JokerRules.Binary64

/-- The bounds over the denominator of the grid. -/
theorem Interval.onGrid?_bounds {i : Interval} {k : Int} {c : Nat} (hden : 0 < i.den)
    (hlow : i.low < i.value) (hhigh : i.value < i.high) (h : i.onGrid? k = some c) :
    i.low * 10 ^ (-k).toNat ≤ c * (i.den * 10 ^ k.toNat) ∧
      c * (i.den * 10 ^ k.toNat) ≤ i.high * 10 ^ (-k).toNat ∧
      (i.closed = true ∨ i.low * 10 ^ (-k).toNat < c * (i.den * 10 ^ k.toNat) ∧
        c * (i.den * 10 ^ k.toNat) < i.high * 10 ^ (-k).toNat) := by
  have hup : 0 < 10 ^ (-k).toNat := Nat.pow_pos (by decide)
  have hgrid : 0 < i.den * 10 ^ k.toNat := Nat.mul_pos hden (Nat.pow_pos (by decide))
  have hlow := Nat.mul_lt_mul_of_pos_right hlow hup
  have hhigh := Nat.mul_lt_mul_of_pos_right hhigh hup
  simp only [Interval.onGrid?, Nat.pow_eq] at h
  generalize i.den * 10 ^ k.toNat = den at *
  generalize i.low * 10 ^ (-k).toNat = low at *
  generalize i.high * 10 ^ (-k).toNat = high at *
  generalize i.value * 10 ^ (-k).toNat = value at *
  have hdiv := Nat.div_add_mod' value den
  have hmod := Nat.mod_lt value hgrid
  split at h
  · next hbound =>
    obtain rfl := Option.some.inj h
    simp only [Bool.and_eq_true, Bool.or_eq_true, decide_eq_true_eq, beq_iff_eq] at hbound
    rcases hbound.1 with hlt | ⟨hclosed, heq⟩
    · exact ⟨by omega, by omega, .inr ⟨hlt, by omega⟩⟩
    · exact ⟨by omega, by omega, .inl hclosed⟩
  · split at h
    · next hbound =>
      obtain rfl := Option.some.inj h
      simp only [Bool.and_eq_true, Bool.or_eq_true, decide_eq_true_eq, beq_iff_eq] at hbound
      rw [Nat.add_mul, Nat.one_mul] at hbound ⊢
      rcases hbound with hlt | ⟨hclosed, heq⟩
      · exact ⟨by omega, by omega, .inr ⟨by omega, hlt⟩⟩
      · exact ⟨by omega, by omega, .inl hclosed⟩
    · cases h

theorem Interval.onGrid?_contains {i : Interval} {k : Int} {c : Nat} (hden : 0 < i.den)
    (hlow : i.low < i.value) (hhigh : i.value < i.high) (h : i.onGrid? k = some c) :
    i.Contains (c * 10 ^ k) := by
  obtain ⟨hlow, hhigh, hclosed⟩ := Interval.onGrid?_bounds hden hlow hhigh h
  have hscale : (0 : ℚ) < 10 ^ (-k).toNat := by positivity
  have hunits : (c : ℚ) * 10 ^ k * i.den * 10 ^ (-k).toNat = c * (i.den * 10 ^ k.toNat) := by
    rw [zpow_eq_div (by norm_num)]
    field_simp
  refine ⟨?_, ?_, hclosed.imp_right fun ⟨hlow, hhigh⟩ => ⟨?_, ?_⟩⟩
  · rw [← mul_le_mul_iff_left₀ hscale, hunits]
    exact_mod_cast hlow
  · rw [← mul_le_mul_iff_left₀ hscale, hunits]
    exact_mod_cast hhigh
  · rw [← mul_lt_mul_iff_left₀ hscale, hunits]
    exact_mod_cast hlow
  · rw [← mul_lt_mul_iff_left₀ hscale, hunits]
    exact_mod_cast hhigh

section Shortest

variable {x : Binary64}

theorem low_lt_value (hx : x.isZero = false) : x.interval.low < x.interval.value := by
  have hpos := significand_pos hx
  simp only [interval, Nat.shiftLeft_eq, one_mul]
  refine Nat.mul_lt_mul_of_pos_right ?_ (by positivity)
  split <;> omega

theorem value_lt_high (x : Binary64) : x.interval.value < x.interval.high := by
  simp only [interval, Nat.shiftLeft_eq, one_mul]
  exact Nat.mul_lt_mul_of_pos_right (by omega) (by positivity)

theorem shortest_contains (hx : x.isZero = false) :
    x.interval.Contains (x.interval.shortest.1 * 10 ^ x.interval.shortest.2) := by
  obtain ⟨c, n, hgrid, -, hshortest⟩ := shortest_cases hx
  have hin := Interval.onGrid?_contains (interval_den_pos x) (low_lt_value hx) (value_lt_high x) hgrid
  rw [hshortest]
  split
  · next hten =>
    have hc : (c : ℚ) = (c / 10 : Nat) * 10 := by
      exact_mod_cast (Nat.div_mul_cancel (Nat.dvd_of_mod_eq_zero hten)).symm
    rwa [zpow_add_one₀ (by norm_num), mul_comm _ (10 : ℚ), ← mul_assoc, ← hc]
  · exact hin

theorem isWhole_iff (hfinite : x.isFinite = true) :
    x.isWhole = true ↔ x.significand % 2 ^ (-x.power).toNat = 0 := by
  simp [isWhole, hfinite, Nat.shiftLeft_eq]

/-- A whole number has no places after the point. -/
theorem shortest_of_isWhole (hfinite : x.isFinite = true) (hx : x.isZero = false)
    (hwhole : x.isWhole = true) : 0 ≤ x.interval.shortest.2 := by
  obtain ⟨c, n, -, hbefore, hshortest⟩ := shortest_cases hx
  have hdvd : x.interval.den ∣ x.interval.value := by
    have hbits := Nat.dvd_of_mod_eq_zero ((isWhole_iff hfinite).mp hwhole)
    simp only [interval, Nat.shiftLeft_eq]
    exact (Nat.mul_dvd_mul_left 4 hbits).mul_right _
  have hlow := low_lt_value hx
  have htop : 0 ≤ decade x.interval.value x.interval.den := by
    have hle : x.interval.den ≤ x.interval.value := Nat.le_of_dvd (by omega) hdvd
    have hcount : 0 < digitCount (x.interval.value / x.interval.den) := Nat.length_toDigits_pos
    rw [decade, if_pos hle]
    omega
  have hunits : x.interval.onGrid? 0 = some (x.interval.value / x.interval.den) := by
    have hvalue := Nat.div_mul_cancel hdvd
    have hmod := Nat.mod_eq_zero_of_dvd hdvd
    have hden := interval_den_pos x
    simp [Interval.onGrid?, hvalue, hmod, hlow, hden]
  have hgrid : 0 ≤ decade x.interval.value x.interval.den - (n : Nat) := by
    by_contra hneg
    have hnone := hbefore (decade x.interval.value x.interval.den).toNat (by omega)
    rw [Int.toNat_of_nonneg htop, Int.sub_self, hunits] at hnone
    cases hnone
  rw [hshortest]
  split
  · show (0 : Int) ≤ _ + 1
    omega
  · exact hgrid

/-- A number that a whole number rounds to has no bits after the point, or it would be that near to
another. -/
theorem isWhole_of_contains {n : Nat} (hfinite : x.isFinite = true) (hx : x.isZero = false)
    (h : x.interval.Contains n) : x.isWhole = true := by
  obtain ⟨hlow, hhigh, -⟩ := bounds_of_contains hx h
  rw [isWhole_iff hfinite]
  by_cases hpower : (-x.power).toNat = 0
  · rw [hpower, pow_zero, Nat.mod_one]
  · have hunits : (n : ℚ) / 2 ^ x.power = (n * 2 ^ (-x.power).toNat : Nat) := by
      have hzero : x.power.toNat = 0 := by omega
      rw [zpow_eq_div two_ne_zero, hzero]
      push_cast
      rw [pow_zero, one_div, div_inv_eq_mul]
    rw [hunits] at hlow hhigh
    have heq : n * 2 ^ (-x.power).toNat = x.significand := by
      have hle : ((n * 2 ^ (-x.power).toNat : Nat) : ℚ) < x.significand + 1 := by linarith
      have hge : (x.significand : ℚ) < (n * 2 ^ (-x.power).toNat : Nat) + 1 := by linarith
      have hle : n * 2 ^ (-x.power).toNat < x.significand + 1 := by exact_mod_cast hle
      have hge : x.significand < n * 2 ^ (-x.power).toNat + 1 := by exact_mod_cast hge
      omega
    rw [← heq, Nat.mul_mod_left]

theorem isFinite_of_isWhole (hwhole : x.isWhole = true) : x.isFinite = true := by
  rw [isWhole, Bool.and_eq_true] at hwhole
  exact hwhole.1

theorem significand_of_isWhole (hwhole : x.isWhole = true) (hlt : x.wholePart < 2 * hiddenBit) :
    x.power ≤ 0 ∧ (x.significand : ℚ) * 2 ^ x.power = x.wholePart := by
  have hfinite := isFinite_of_isWhole hwhole
  have hpower : x.power ≤ 0 := by
    by_contra hpos
    have hexp : x.exponent ≠ 0 := by
      intro hzero
      rw [power, hzero] at hpos
      exact hpos (by decide)
    have hbits : (-x.power).toNat = 0 := by omega
    have htwo : 2 ^ 1 ≤ 2 ^ x.power.toNat := Nat.pow_le_pow_right (by decide) (by omega)
    have hlow : hiddenBit * 2 ^ 1 ≤ x.significand * 2 ^ x.power.toNat := by
      refine Nat.mul_le_mul ?_ htwo
      rw [significand, if_neg hexp]
      exact Nat.le_add_right _ _
    rw [wholePart, hbits, Nat.shiftRight_zero, Nat.shiftLeft_eq] at hlt
    omega
  refine ⟨hpower, ?_⟩
  have hzero : x.power.toNat = 0 := by omega
  obtain ⟨units, hunits⟩ := Nat.dvd_of_mod_eq_zero ((isWhole_iff hfinite).mp hwhole)
  have hbits : 0 < 2 ^ (-x.power).toNat := by positivity
  rw [wholePart, hzero, Nat.shiftLeft_zero, Nat.shiftRight_eq_div_pow, hunits,
    Nat.mul_div_cancel_left _ hbits, zpow_eq_div two_ne_zero, hzero]
  push_cast
  field_simp

/-- A whole number whose units its significand tells apart is written exactly. -/
theorem decimal_of_isWhole (hwhole : x.isWhole = true) (hlt : x.wholePart < 2 * hiddenBit) :
    x.decimal = x.toInt := by
  have hfinite := isFinite_of_isWhole hwhole
  obtain ⟨hpower, hvalue⟩ := significand_of_isWhole hwhole hlt
  have hmagnitude : (if x.isZero then 0 else
      (x.interval.shortest.1 : ℚ) * 10 ^ x.interval.shortest.2) = x.wholePart := by
    cases hx : x.isZero with
    | true =>
      have hzero : x.significand = 0 := by
        rw [isZero, Bool.and_eq_true, beq_iff_eq, beq_iff_eq] at hx
        rw [significand, if_pos hx.1, hx.2]
        rfl
      rw [hzero, Nat.cast_zero, zero_mul] at hvalue
      exact hvalue
    | false =>
      obtain ⟨hlow, hhigh, -⟩ := bounds_of_contains hx (shortest_contains hx)
      have hexp := shortest_of_isWhole hfinite hx hwhole
      obtain ⟨e, he⟩ := Int.eq_ofNat_of_zero_le hexp
      have hunit : (0 : ℚ) < 2 ^ x.power := by positivity
      have hone : (2 : ℚ) ^ x.power ≤ 1 := zpow_le_one_of_nonpos₀ (by norm_num) hpower
      rw [he, le_div_iff₀ hunit, zpow_natCast] at hlow
      rw [he, div_le_iff₀ hunit, zpow_natCast] at hhigh
      rw [if_neg Bool.false_ne_true, he, zpow_natCast]
      have hle : ((x.interval.shortest.1 * 10 ^ e : Nat) : ℚ) < (x.wholePart + 1 : Nat) := by
        push_cast
        linarith
      have hge : (x.wholePart : ℚ) < (x.interval.shortest.1 * 10 ^ e + 1 : Nat) := by
        push_cast
        linarith
      have hle : x.interval.shortest.1 * 10 ^ e < x.wholePart + 1 := by exact_mod_cast hle
      have hge : x.wholePart < x.interval.shortest.1 * 10 ^ e + 1 := by exact_mod_cast hge
      have heq : x.interval.shortest.1 * 10 ^ e = x.wholePart := by omega
      exact_mod_cast heq
  simp only [decimal, hmagnitude, toInt]
  split <;> simp

end Shortest

end JokerRules.Binary64
