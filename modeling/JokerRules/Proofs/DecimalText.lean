import JokerRules.Proofs.ShortestDigits

/-! A finite number reads back from its text. The digits that are written lie among the reals that
round to the number, and reading rounds them to it. -/

namespace JokerRules.Binary64

theorem digitsValue_cons (d : Char) (ds : List Char) :
    digitsValue (d :: ds) = (d.toNat - '0'.toNat) * 10 ^ ds.length + digitsValue ds := by
  have hone : digitsValue [d] = d.toNat - '0'.toNat := by simp [digitsValue]
  rw [← List.singleton_append, digitsValue_append, hone]

theorem digit_bounds {d : Char} (h : d.isDigit = true) : 48 ≤ d.toNat ∧ d.toNat ≤ 57 := by
  simpa [Char.isDigit, UInt32.le_iff_toNat_le] using h

theorem digitsValue_lt {ds : List Char} (h : ∀ d ∈ ds, d.isDigit = true) :
    digitsValue ds < 10 ^ ds.length := by
  induction ds with
  | nil => decide
  | cons d ds ih =>
    have hrest := ih fun c hc => h c (List.mem_cons_of_mem _ hc)
    have hdigit : d.toNat - '0'.toNat ≤ 9 := by
      have hbounds := digit_bounds (h d List.mem_cons_self)
      have hzero : '0'.toNat = 48 := rfl
      omega
    have hlead := Nat.mul_le_mul_right (10 ^ ds.length) hdigit
    rw [digitsValue_cons, List.length_cons, pow_succ]
    omega

theorem pow_le_digitsValue {d : Char} (hd : d.isDigit = true) (hne : d ≠ '0') (ds : List Char) :
    10 ^ ds.length ≤ digitsValue (d :: ds) := by
  have hdigit : 1 ≤ d.toNat - '0'.toNat := by
    have hbounds := digit_bounds hd
    have hzero : '0'.toNat = 48 := rfl
    have hval : d.toNat ≠ 48 := fun heq => hne (Char.ext (UInt32.toNat_inj.mp heq))
    omega
  have hlead := Nat.mul_le_mul_right (10 ^ ds.length) hdigit
  rw [digitsValue_cons]
  omega

theorem digitsValue_dropZeros (ds : List Char) :
    digitsValue (ds.dropWhile (· == '0')) = digitsValue ds := by
  induction ds with
  | nil => rfl
  | cons d ds ih =>
    by_cases hd : d = '0'
    · rw [hd, List.dropWhile_cons_of_pos (by rfl), ih, digitsValue_cons, Nat.sub_self, Nat.zero_mul,
        Nat.zero_add]
    · rw [List.dropWhile_cons_of_neg (by simpa using hd)]

theorem dropZeros_cons {digits ds : List Char} {d : Char} (hdigits : ∀ c ∈ digits, c.isDigit = true)
    (h : digits.dropWhile (· == '0') = d :: ds) : (∀ c ∈ d :: ds, c.isDigit = true) ∧ d ≠ '0' := by
  have hhead := List.head?_dropWhile_not (· == '0') digits
  rw [h] at hhead
  exact ⟨fun c hc => hdigits c ((List.dropWhile_sublist _).subset (h ▸ hc)), by simpa using hhead⟩

section Decimal

variable {x : Binary64} {r : ℚ}

/-- What rounds to a finite number has at most 400 digits before the point and at most 400 zeros
after it. -/
theorem range_of_contains {n : Int} (hn : 400 ≤ n) (hfinite : x.isFinite = true)
    (hx : x.isZero = false) (h : x.interval.Contains r) : (10 : ℚ) ^ (-n) < r ∧ r < 10 ^ n := by
  obtain ⟨hlow, hhigh, -⟩ := bounds_of_contains hx h
  have hunit : (0 : ℚ) < 2 ^ x.power := by positivity
  have hpos : (1 : ℚ) ≤ x.significand := by exact_mod_cast significand_pos hx
  have hlt : (x.significand : ℚ) + 1 ≤ 2 * 4503599627370496 := by
    exact_mod_cast significand_lt x
  have hexp := exponent_lt hfinite
  rw [le_div_iff₀ hunit] at hlow
  rw [div_le_iff₀ hunit] at hhigh
  have hten : (2 : ℚ) ^ (3 * n) < 10 ^ n := by
    rw [zpow_mul]
    exact zpow_lt_zpow_left₀ (by omega) (by norm_num) (by norm_num)
  constructor
  · have hpower : (2 : ℚ) ^ (1 - 3 * n) ≤ 2 ^ x.power :=
      zpow_le_zpow_right₀ (by norm_num) (by unfold power; omega)
    calc (10 : ℚ) ^ (-n) < 2 ^ (-(3 * n)) := by
          rw [zpow_neg, zpow_neg]
          exact inv_strictAnti₀ (by positivity) hten
      _ = 1 / 2 * 2 ^ (1 - 3 * n) := by
          rw [sub_eq_add_neg, zpow_add₀ two_ne_zero, zpow_one, ← mul_assoc]
          norm_num
      _ ≤ (x.significand - 1 / 2) * 2 ^ x.power := by
          refine mul_le_mul ?_ hpower ?_ ?_
          · linarith
          · positivity
          · linarith
      _ ≤ r := hlow
  · have hpower : (2 : ℚ) ^ x.power ≤ 2 ^ (3 * n - 53) :=
      zpow_le_zpow_right₀ (by norm_num) (by unfold power; omega)
    calc r ≤ (x.significand + 1 / 2) * 2 ^ x.power := hhigh
      _ ≤ 2 ^ (53 : Int) * 2 ^ (3 * n - 53) := by
          gcongr
          norm_num
          linarith
      _ = 2 ^ (3 * n) := by
          rw [← zpow_add₀ two_ne_zero, add_sub_cancel]
      _ < 10 ^ n := hten

/-- Digits whose value rounds to a number are read as it. -/
theorem ofDecimal?_of_contains {digits : List Char} {exponent : Int} (hfinite : x.isFinite = true)
    (hx : x.isZero = false) (hdigits : ∀ d ∈ digits, d.isDigit = true)
    (h : x.interval.Contains (digitsValue digits * 10 ^ exponent)) :
    ofDecimal? x.negative digits exponent = some x := by
  obtain ⟨hlow, hhigh⟩ := range_of_contains le_rfl hfinite hx h
  rw [← digitsValue_dropZeros] at h hlow hhigh
  have hten : (1 : ℚ) < 10 := by norm_num
  have hunit : (0 : ℚ) < 10 ^ exponent := by positivity
  simp only [ofDecimal?]
  cases hds : digits.dropWhile (· == '0') with
  | nil =>
    rw [hds] at hlow
    have hzero : (0 : ℚ) < 10 ^ (-400 : Int) := by positivity
    have hnil : digitsValue [] = 0 := rfl
    rw [hnil, Nat.cast_zero, zero_mul] at hlow
    linarith
  | cons d ds =>
    rw [hds] at h hlow hhigh
    obtain ⟨hmem, hne⟩ := dropZeros_cons hdigits hds
    have hleast : (10 : ℚ) ^ (exponent + ds.length) ≤ digitsValue (d :: ds) * 10 ^ exponent := by
      rw [zpow_add₀ (by norm_num), mul_comm, zpow_natCast]
      gcongr
      exact_mod_cast pow_le_digitsValue (hmem d List.mem_cons_self) hne ds
    have hmost : (digitsValue (d :: ds) : ℚ) * 10 ^ exponent < 10 ^ (exponent + (d :: ds).length) := by
      rw [zpow_add₀ (by norm_num), mul_comm, zpow_natCast]
      gcongr
      exact_mod_cast digitsValue_lt hmem
    have hsmall := (zpow_lt_zpow_iff_right₀ hten).mp (hlow.trans hmost)
    have hlarge := (zpow_lt_zpow_iff_right₀ hten).mp (hleast.trans_lt hhigh)
    have hratio : ((digitsValue (d :: ds) * 10 ^ exponent.toNat : Nat) : ℚ) /
        (10 ^ (-exponent).toNat : Nat) = digitsValue (d :: ds) * 10 ^ exponent := by
      rw [zpow_eq_div (by norm_num)]
      push_cast
      rw [mul_div_assoc]
    have hnearest := nearest_of_contains hfinite hx (pow_ne_zero (-exponent).toNat (by decide))
      (hratio ▸ h)
    rw [List.length_cons] at hsmall
    rw [if_neg (by simp), List.length_cons, if_neg (by omega), if_neg (by omega), Nat.pow_eq,
      Nat.pow_eq, hnearest, if_pos hfinite]

end Decimal

theorem isFinite_nearest (negative : Bool) (num den : Nat) :
    (nearest negative num den).isFinite = (nearest false num den).isFinite := by
  simp only [nearest]
  split
  · rfl
  · unfold pack
    split_ifs <;> rfl

/-- What has more bits than the largest number is not finite. -/
theorem isFinite_nearest_of_le {num : Nat} (negative : Bool) (h : 1024 ≤ num.log2) :
    (nearest negative num 1).isFinite = false := by
  have hnum : num ≠ 0 := by
    rintro rfl
    rw [Nat.log2_zero] at h
    omega
  have hlow := Nat.log2_self_le hnum
  have hhigh := Nat.lt_log2_self (n := num)
  obtain ⟨n, hn⟩ : ∃ n, num.log2 = n + 52 := ⟨num.log2 - 52, by omega⟩
  rw [hn] at h hlow hhigh
  have hlt : (num : ℚ) / (1 : Nat) < 2 ^ ((n : Int) + 53) := by
    rw [Nat.cast_one, div_one]
    exact_mod_cast hhigh
  have hge : (2 : ℚ) ^ ((n : Int) + 52) ≤ num / (1 : Nat) := by
    rw [Nat.cast_one, div_one]
    exact_mod_cast hlow
  have hround : hiddenBit ≤ roundRatio (scaleDown num 1 n).1 (scaleDown num 1 n).2 := by
    have hquotient : hiddenBit ≤ (scaleDown num 1 n).1 / (scaleDown num 1 n).2 := by
      rw [Nat.le_div_iff_mul_le (scaleDown_pos num Nat.one_pos _)]
      simpa [scaleDown, Nat.shiftLeft_eq, hiddenBit, pow_add, mul_comm] using hlow
    simp only [roundRatio]
    split <;> omega
  have hcarry : ¬(n : Int) + 1076 < 2047 := by omega
  have hpower : ¬(n : Int) + 1075 < 2047 := by omega
  rw [nearest_eq_pack negative hnum Nat.one_ne_zero (by omega) hlt (.inl hge), pack,
    if_neg (Nat.not_lt.mpr hround), if_neg hcarry, if_neg hpower, ite_self]
  rfl

theorem le_log2_of_pow_le {n num : Nat} (h : 10 ^ n ≤ num) : 3 * n ≤ num.log2 := by
  have hpos : 0 < 10 ^ n := Nat.pow_pos (by decide)
  rw [Nat.le_log2 (by omega), pow_mul]
  exact (Nat.pow_le_pow_left (by decide) n).trans h

/-- A whole number is read if it is not too large for the format. -/
theorem ofDecimal?_whole (negative : Bool) {digits : List Char}
    (hdigits : ∀ d ∈ digits, d.isDigit = true) :
    (ofDecimal? negative digits 0).isSome = (nearest negative (digitsValue digits) 1).isFinite := by
  rw [← digitsValue_dropZeros]
  simp only [ofDecimal?]
  cases hds : digits.dropWhile (· == '0') with
  | nil => rfl
  | cons d ds =>
    obtain ⟨hmem, hne⟩ := dropZeros_cons hdigits hds
    rw [if_neg (by simp), List.length_cons]
    split
    · next hlong =>
      have hbits := le_log2_of_pow_le (pow_le_digitsValue (hmem d List.mem_cons_self) hne ds)
      rw [isFinite_nearest_of_le negative (by omega)]
      rfl
    · rw [if_neg (by omega)]
      simp only [Int.toNat_zero, Int.neg_zero, Nat.pow_zero, Nat.pow_eq, Nat.mul_one]
      split
      · next hfinite => exact hfinite.symm
      · next hfinite => simpa using hfinite

theorem isFinite_ofInt (negative : Bool) {digits : List Char} {n : Int}
    (hdigits : ∀ d ∈ digits, d.isDigit = true) (hn : digitsValue digits = n.natAbs) :
    (ofInt n).isFinite = (ofDecimal? negative digits 0).isSome := by
  rw [ofDecimal?_whole negative hdigits, hn, ofInt, isFinite_nearest, isFinite_nearest negative]
theorem takeSign_text (negative : Bool) (cs : List Char) (h : ∀ c ∈ cs.head?, c.isDigit = true) :
    takeSign ((if negative then ['-'] else []) ++ cs) = (negative, cs) := by
  cases negative with
  | true => rfl
  | false =>
    cases cs with
    | nil => rfl
    | cons c cs =>
      have hc : c.isDigit = true := h c rfl
      have hminus : c ≠ '-' := by
        rintro rfl
        exact absurd hc (by decide)
      have hplus : c ≠ '+' := by
        rintro rfl
        exact absurd hc (by decide)
      simp [takeSign, hminus, hplus]

theorem takeWhile_digits {ds : List Char} (hds : ∀ d ∈ ds, d.isDigit = true) (rest : List Char)
    (hrest : ∀ c ∈ rest.head?, c.isDigit = false) :
    (ds ++ rest).takeWhile Char.isDigit = ds ∧ (ds ++ rest).dropWhile Char.isDigit = rest := by
  rw [List.takeWhile_append_of_pos hds, List.dropWhile_append_of_pos hds]
  cases rest with
  | nil => simp
  | cons c rest =>
    have hc : ¬c.isDigit = true := by simp [hrest c rfl]
    rw [List.takeWhile_cons_of_neg hc, List.dropWhile_cons_of_neg hc, List.append_nil]
    exact ⟨rfl, rfl⟩

theorem read?_pointed (negative : Bool) {whole fraction : List Char}
    (hwhole : ∀ d ∈ whole, d.isDigit = true) (hfraction : ∀ d ∈ fraction, d.isDigit = true)
    (hne : whole ≠ []) :
    read? (String.ofList ((if negative then ['-'] else []) ++ (whole ++ '.' :: fraction))) =
      ofDecimal? negative (whole ++ fraction) (-fraction.length) := by
  obtain ⟨d, ds, rfl⟩ := List.exists_cons_of_ne_nil hne
  have hsign := takeSign_text negative (d :: ds ++ '.' :: fraction)
    fun c hc => hwhole c (by simp_all)
  obtain ⟨htake, hdrop⟩ := takeWhile_digits hwhole ('.' :: fraction) (by simp)
  obtain ⟨htake', hdrop'⟩ := takeWhile_digits hfraction [] (by simp)
  rw [List.append_nil] at htake' hdrop'
  simp only [read?, String.toList_ofList, hsign, htake, hdrop, takeFraction, htake', hdrop']
  simp [readExponent?]

theorem read?_digits (negative : Bool) {whole : List Char} (hwhole : ∀ d ∈ whole, d.isDigit = true)
    (hne : whole ≠ []) :
    read? (String.ofList ((if negative then ['-'] else []) ++ whole)) =
      ofDecimal? negative whole 0 := by
  obtain ⟨d, ds, rfl⟩ := List.exists_cons_of_ne_nil hne
  have hsign := takeSign_text negative (d :: ds) fun c hc => hwhole c (by simp_all)
  obtain ⟨htake, hdrop⟩ := takeWhile_digits hwhole [] (by simp)
  rw [List.append_nil] at htake hdrop
  simp only [read?, String.toList_ofList, hsign, htake, hdrop, takeFraction]
  simp [readExponent?]

end JokerRules.Binary64
