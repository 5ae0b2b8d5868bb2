import JokerRules.Proofs.Numerals
import Mathlib.Algebra.Order.Field.Power

/-! Rounding to the nearest number. A ratio whose value lies in the interval of the reals that round
to a number is rounded to this number. -/

namespace JokerRules.Binary64

/-- A whole number at most a half away, and even if it is a half away, is what a ratio is rounded
to. -/
theorem roundRatio_eq {num den m : Nat} (hden : 0 < den) (hlow : (m : ℚ) - 1 / 2 ≤ num / den)
    (hhigh : (num : ℚ) / den ≤ m + 1 / 2)
    (htie : m % 2 = 0 ∨ (m : ℚ) - 1 / 2 < num / den ∧ (num : ℚ) / den < m + 1 / 2) :
    roundRatio num den = m := by
  have hpos : (0 : ℚ) < den := by exact_mod_cast hden
  rw [le_div_iff₀ hpos] at hlow
  rw [div_le_iff₀ hpos] at hhigh
  rw [lt_div_iff₀ hpos, div_lt_iff₀ hpos] at htie
  have hlow : 2 * (m * den) ≤ 2 * num + den := by
    have hcast : 2 * ((m : ℚ) * den) ≤ 2 * num + den := by linarith
    exact_mod_cast hcast
  have hhigh : 2 * num ≤ 2 * (m * den) + den := by
    have hcast : 2 * (num : ℚ) ≤ 2 * (m * den) + den := by linarith
    exact_mod_cast hcast
  have htie : m % 2 = 0 ∨ 2 * (m * den) < 2 * num + den ∧ 2 * num < 2 * (m * den) + den := by
    refine htie.imp_right fun ⟨hbelow, habove⟩ => ?_
    have hbelow : 2 * ((m : ℚ) * den) < 2 * num + den := by linarith
    have habove : 2 * (num : ℚ) < 2 * (m * den) + den := by linarith
    exact ⟨by exact_mod_cast hbelow, by exact_mod_cast habove⟩
  have hdiv : num / den * den + num % den = num := Nat.div_add_mod' num den
  have hmod : num % den < den := Nat.mod_lt num hden
  have hle : num / den < m + 1 := by
    refine Nat.lt_of_mul_lt_mul_right (a := den) ?_
    rw [Nat.add_mul]
    omega
  have hge : m < num / den + 2 := by
    refine Nat.lt_of_mul_lt_mul_right (a := den) ?_
    rw [Nat.add_mul]
    omega
  simp only [roundRatio, Bool.or_eq_true, Bool.and_eq_true, decide_eq_true_eq, beq_iff_eq]
  obtain hm | hm : m = num / den ∨ m = num / den + 1 := by omega
  · rw [← hm] at hdiv ⊢
    rw [if_neg (by omega)]
  · rw [hm, Nat.add_mul] at hlow hhigh htie
    rw [if_pos (by omega), hm]

theorem scaleDown_pos (num : Nat) {den : Nat} (hden : 0 < den) (power : Int) :
    0 < (scaleDown num den power).2 := by
  simp only [scaleDown, Nat.shiftLeft_eq]
  positivity

theorem scaleDown_ratio (num den : Nat) (power : Int) :
    ((scaleDown num den power).1 : ℚ) / (scaleDown num den power).2 = num / den / 2 ^ power := by
  simp only [scaleDown, Nat.shiftLeft_eq]
  rw [zpow_eq_div two_ne_zero, div_div_eq_mul_div]
  push_cast
  rw [mul_div_mul_comm, mul_div_assoc]

theorem log2_ratio {num den : Nat} (hnum : num ≠ 0) (hden : den ≠ 0) :
    (2 : ℚ) ^ ((num.log2 : Int) - den.log2 - 1) < num / den ∧
      (num : ℚ) / den < 2 ^ ((num.log2 : Int) - den.log2 + 1) := by
  have hpow : ∀ n : Nat, n ≠ 0 → (2 : ℚ) ^ (n.log2 : Int) ≤ n ∧ (n : ℚ) < 2 ^ ((n.log2 : Int) + 1) := by
    intro n hn
    refine ⟨?_, ?_⟩
    · rw [zpow_natCast]
      exact_mod_cast Nat.log2_self_le hn
    · rw [← Nat.cast_succ, zpow_natCast]
      exact_mod_cast Nat.lt_log2_self
  obtain ⟨hnumlow, hnumhigh⟩ := hpow num hnum
  obtain ⟨hdenlow, hdenhigh⟩ := hpow den hden
  have hpos : (0 : ℚ) < den := by exact_mod_cast Nat.pos_of_ne_zero hden
  rw [lt_div_iff₀ hpos, div_lt_iff₀ hpos]
  constructor
  · calc (2 : ℚ) ^ ((num.log2 : Int) - den.log2 - 1) * den
        < 2 ^ ((num.log2 : Int) - den.log2 - 1) * 2 ^ ((den.log2 : Int) + 1) := by gcongr
      _ = 2 ^ (num.log2 : Int) := by
          rw [← zpow_add₀ two_ne_zero]
          congr 1
          omega
      _ ≤ num := hnumlow
  · calc (num : ℚ) < 2 ^ ((num.log2 : Int) + 1) := hnumhigh
      _ = 2 ^ ((num.log2 : Int) - den.log2 + 1) * 2 ^ (den.log2 : Int) := by
          rw [← zpow_add₀ two_ne_zero]
          congr 1
          omega
      _ ≤ 2 ^ ((num.log2 : Int) - den.log2 + 1) * den := by gcongr

/-- A ratio is rounded at the power at which its significand has all bits, or at the least power. -/
theorem nearest_eq_pack {num den : Nat} {power : Int} (negative : Bool) (hnum : num ≠ 0)
    (hden : den ≠ 0) (hleast : -1074 ≤ power) (hlt : (num : ℚ) / den < 2 ^ (power + 53))
    (hge : (2 : ℚ) ^ (power + 52) ≤ num / den ∨ power = -1074) :
    nearest negative num den =
      pack negative (roundRatio (scaleDown num den power).1 (scaleDown num den power).2) power := by
  obtain ⟨hlow, hhigh⟩ := log2_ratio hnum hden
  have htwo : (1 : ℚ) < 2 := by norm_num
  have hbelow : (num.log2 : Int) - den.log2 - 53 ≤ power := by
    have hpow := (zpow_lt_zpow_iff_right₀ htwo).mp (hlow.trans hlt)
    omega
  have habove : power ≤ max ((num.log2 : Int) - den.log2 - 53) (-1074) + 1 := by
    rcases hge with hge | rfl
    · have hpow := (zpow_lt_zpow_iff_right₀ htwo).mp (hge.trans_lt hhigh)
      omega
    · omega
  generalize hstart : max ((num.log2 : Int) - den.log2 - 53) (-1074) = start at habove
  have hfits : ((scaleDown num den start).1 / (scaleDown num den start).2 < 2 * hiddenBit) ↔
      (num : ℚ) / den < 2 ^ (start + 53) := by
    have hpos := scaleDown_pos num (Nat.pos_of_ne_zero hden) start
    have hposQ : (0 : ℚ) < (scaleDown num den start).2 := by exact_mod_cast hpos
    have hbits : (2 : ℚ) ^ (start + 53) = ((2 * hiddenBit : Nat) : ℚ) * 2 ^ start := by
      rw [zpow_add₀ two_ne_zero, mul_comm]
      norm_num [hiddenBit]
    rw [hbits, ← div_lt_iff₀ (by positivity), ← scaleDown_ratio, div_lt_iff₀ hposQ,
      Nat.div_lt_iff_lt_mul hpos]
    norm_cast
  have hpower : (if (scaleDown num den start).1 / (scaleDown num den start).2 < 2 * hiddenBit then
      start else start + 1) = power := by
    obtain rfl | hnext : power = start ∨ power = start + 1 := by omega
    · rw [if_pos (hfits.mpr hlt)]
    · rw [if_neg, hnext]
      rw [hfits, not_lt]
      rcases hge with hge | hpower
      · rwa [hnext, add_assoc] at hge
      · omega
  simp only [nearest, if_neg hnum, hstart, hpower]

section Fields

variable {x : Binary64}

theorem power_add (h : x.exponent ≠ 0) : x.power + 1075 = x.exponent.val := by
  have hpos : x.exponent.val ≠ 0 := fun hzero => h (Fin.ext hzero)
  unfold power
  omega

theorem exponent_lt (hx : x.isFinite = true) : x.exponent.val < 2047 := by
  have hlt := x.exponent.isLt
  have hne : x.exponent ≠ 2047 := by simpa [isFinite] using hx
  have hval : x.exponent.val ≠ 2047 := fun heq => hne (Fin.ext heq)
  omega

theorem pack_significand (hx : x.isFinite = true) :
    pack x.negative x.significand x.power = x := by
  have hfraction := x.fraction.isLt
  have hlt := exponent_lt hx
  unfold pack significand
  by_cases hexp : x.exponent = 0
  · rw [if_pos hexp, if_pos hfraction, Fin.ofNat_val_eq_self, ← hexp]
  · have hpower := power_add hexp
    rw [if_neg hexp, if_neg (by omega), if_neg (by omega), if_pos (by omega), hpower, Int.toNat_natCast,
      Nat.add_sub_cancel_left, Fin.ofNat_val_eq_self, Fin.ofNat_val_eq_self]

/-- A significand that is rounded up to the next power of two. -/
theorem pack_carry (hx : x.isFinite = true) (hexp : 1 < x.exponent.val) (hfraction : x.fraction = 0) :
    pack x.negative (2 * hiddenBit) (x.power - 1) = x := by
  have hlt := exponent_lt hx
  have hne : x.exponent ≠ 0 := by
    intro hzero
    rw [hzero] at hexp
    exact absurd hexp (by decide)
  have hpower : x.power - 1 + 1076 = x.exponent.val := by
    have hadd := power_add hne
    omega
  unfold pack
  rw [if_neg (by decide), if_pos rfl, hpower, if_pos (by omega), Int.toNat_natCast,
    Fin.ofNat_val_eq_self, ← hfraction]

end Fields

/-- The reals between the bounds, with the bounds themselves if the interval is closed. -/
def Interval.Contains (i : Interval) (r : ℚ) : Prop :=
  i.low ≤ r * i.den ∧ r * i.den ≤ i.high ∧
    (i.closed = true ∨ i.low < r * i.den ∧ r * i.den < i.high)

section Contains

variable {x : Binary64} {r : ℚ}

/-- The bounds in units of the last bit of the significand. -/
theorem bounds_of_contains (hx : x.isZero = false) (h : x.interval.Contains r) :
    (x.significand : ℚ) - 1 / 2 ≤ r / 2 ^ x.power ∧ r / 2 ^ x.power ≤ x.significand + 1 / 2 ∧
      (x.significand % 2 = 0 ∨
        (x.significand : ℚ) - 1 / 2 < r / 2 ^ x.power ∧ r / 2 ^ x.power < x.significand + 1 / 2) ∧
      (x.fraction = 0 → 1 < x.exponent.val → (x.significand : ℚ) - 1 / 4 ≤ r / 2 ^ x.power) := by
  have hpos := significand_pos hx
  have hscale : (0 : ℚ) < 2 ^ x.power.toNat := by positivity
  have hunits : r * (4 * 2 ^ (-x.power).toNat) = 4 * (r / 2 ^ x.power) * 2 ^ x.power.toNat := by
    rw [zpow_eq_div two_ne_zero]
    field_simp
  generalize hbelow : (if x.fraction = 0 && 1 < x.exponent.val then 1 else 2) = below
  have hle : below ≤ 2 := by
    rw [← hbelow]
    split <;> omega
  obtain ⟨hlow, hhigh, hclosed⟩ := h
  simp only [interval, hbelow, Nat.shiftLeft_eq, one_mul, Nat.cast_mul, Nat.cast_pow, Nat.cast_ofNat,
    hunits, beq_iff_eq] at hlow hhigh hclosed
  rw [mul_le_mul_iff_left₀ hscale, Nat.cast_sub (by omega)] at hlow
  rw [mul_le_mul_iff_left₀ hscale] at hhigh
  rw [mul_lt_mul_iff_left₀ hscale, mul_lt_mul_iff_left₀ hscale, Nat.cast_sub (by omega)] at hclosed
  push_cast at hlow hhigh hclosed
  have hleQ : (below : ℚ) ≤ 2 := by exact_mod_cast hle
  refine ⟨by linarith, by linarith, ?_, fun hfraction hexp => ?_⟩
  · rcases hclosed with heven | ⟨hbelow, habove⟩
    · exact .inl heven
    · exact .inr ⟨by linarith, by linarith⟩
  · have hone : below = 1 := by
      rw [← hbelow, hfraction]
      simp [hexp]
    rw [hone] at hlow
    push_cast at hlow
    linarith

/-- What lies in the interval of a number rounds to it. -/
theorem nearest_of_contains {num den : Nat} (hfinite : x.isFinite = true) (hx : x.isZero = false)
    (hden : den ≠ 0) (h : x.interval.Contains (num / den)) : nearest x.negative num den = x := by
  obtain ⟨hlow, hhigh, htie, hquarter⟩ := bounds_of_contains hx h
  have hpos := significand_pos hx
  have hlt := significand_lt x
  have hbit : hiddenBit = 4503599627370496 := rfl
  have hunit : (0 : ℚ) < 2 ^ x.power := by positivity
  have hnum : num ≠ 0 := by
    rintro rfl
    have hone : (1 : ℚ) ≤ x.significand := by exact_mod_cast hpos
    rw [Nat.cast_zero, zero_div, zero_div] at hlow
    linarith
  have hleast : -1074 ≤ x.power := by
    unfold power
    omega
  have hltQ : (x.significand : ℚ) + 1 ≤ 2 * 4503599627370496 := by exact_mod_cast hlt
  have habove : (num : ℚ) / den < 2 ^ (x.power + 53) := by
    rw [zpow_add₀ two_ne_zero, ← div_lt_iff₀' hunit]
    norm_num
    linarith
  by_cases hbelow : (2 : ℚ) ^ (x.power + 52) ≤ num / den ∨ x.power = -1074
  · rw [nearest_eq_pack x.negative hnum hden hleast habove hbelow,
      roundRatio_eq (scaleDown_pos num (Nat.pos_of_ne_zero hden) _) (by rwa [scaleDown_ratio])
        (by rwa [scaleDown_ratio]) (by rwa [scaleDown_ratio]), pack_significand hfinite]
  · -- The ratio is below a power of two that it is rounded up to.
    rw [not_or, not_le, zpow_add₀ two_ne_zero, ← div_lt_iff₀' hunit] at hbelow
    norm_num at hbelow
    obtain ⟨hbelow, hpower⟩ := hbelow
    have hexp : 1 < x.exponent.val := by
      unfold power at hpower
      omega
    have hne : x.exponent ≠ 0 := by
      intro hzero
      rw [hzero] at hexp
      exact absurd hexp (by decide)
    have hsignificand : x.significand = hiddenBit + x.fraction := if_neg hne
    have hfraction : x.fraction = 0 := by
      have hcast : (x.significand : ℚ) < 4503599627370496 + 1 := by linarith
      have hcast : x.significand < 4503599627370496 + 1 := by exact_mod_cast hcast
      exact Fin.ext (by rw [Fin.val_zero]; omega)
    have hquarter := hquarter hfraction hexp
    rw [hfraction, Fin.val_zero, Nat.add_zero] at hsignificand
    rw [hsignificand, hbit] at hquarter
    push_cast at hquarter
    have hhalf : (num : ℚ) / den / 2 ^ (x.power - 1) = 2 * (num / den / 2 ^ x.power) := by
      rw [zpow_sub_one₀ two_ne_zero]
      field_simp
    have habove : (num : ℚ) / den < 2 ^ (x.power - 1 + 53) := by
      rw [zpow_add₀ two_ne_zero, ← div_lt_iff₀' (by positivity), hhalf]
      norm_num
      linarith
    have hbelow : (2 : ℚ) ^ (x.power - 1 + 52) ≤ num / den := by
      rw [zpow_add₀ two_ne_zero, ← le_div_iff₀' (by positivity), hhalf]
      norm_num
      linarith
    have hround : roundRatio (scaleDown num den (x.power - 1)).1 (scaleDown num den (x.power - 1)).2 =
        2 * hiddenBit := by
      refine roundRatio_eq (scaleDown_pos num (Nat.pos_of_ne_zero hden) _) ?_ ?_ (.inl (by decide)) <;>
        · rw [scaleDown_ratio, hhalf, hbit]
          push_cast
          linarith
    rw [nearest_eq_pack x.negative hnum hden (by omega) habove (.inl hbelow), hround,
      pack_carry hfinite hexp hfraction]

end Contains

end JokerRules.Binary64
