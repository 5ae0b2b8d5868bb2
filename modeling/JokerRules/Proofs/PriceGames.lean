import JokerRules.Proofs.ShiftedPrices

/-! Games in which the grouping of a sum matters. The readings of the game's state have any given
value, and some price tells two different discounts apart. -/

namespace JokerRules

open Expressions

/-- Every place and every table has the same number. -/
def uniform (n : Nat) : Game := fun name =>
  if name ∈ tableNames then .table n else .number n

theorem regular_uniform (n : Nat) : Regular (uniform n) where
  table _ hname := .inr ⟨n, if_pos hname⟩
  number _ hname := ⟨n, if_neg hname⟩

theorem eval_uniform {r : Gauge} (hr : r ∈ gauges) (n : Nat) (chance : Chance) :
    r.expr.eval chance (uniform n) = some [.number n] := by
  have htable : ∀ name ∈ r.tables, uniform n name = .table n :=
    fun name hname => if_pos (List.mem_flatMap.mpr ⟨r, hr, hname⟩)
  have hnumber : ∀ name ∈ r.numbers, uniform n name = .number n :=
    fun name hname => if_neg (numbers_notMem_tableNames r hr name hname)
  cases r with
  | plain path => simp [Gauge.expr, Expr.eval, hnumber path (by simp [Gauge.numbers])]
  | orZero path =>
    simp [Gauge.expr, Expr.eval, Operator.apply?, Datum.isPresent,
      hnumber path (by simp [Gauge.numbers])]
  | entries path =>
    simp [Gauge.expr, Expr.eval, Operator.apply?, Sign.apply?, Datum.isPresent,
      htable path (by simp [Gauge.tables])]
  | count place path =>
    simp [Gauge.expr, Expr.eval, Operator.apply?, Sign.apply?, Datum.isPresent,
      htable place (by simp [Gauge.tables]), htable path (by simp [Gauge.tables])]
  | total place path =>
    simp [Gauge.expr, Expr.eval, Operator.apply?, Datum.isPresent,
      htable place (by simp [Gauge.tables]), hnumber path (by simp [Gauge.numbers])]

def shop (n : Nat) (cost : ℚ) (name : String) (s : ℚ) : Game :=
  Function.update (Function.update (uniform n) "self.cost" (.number cost)) (Slot.read name) (.number s)

section Shop

variable (n : Nat) (cost : ℚ) (name : String) (s : ℚ)

theorem read_ne_price : Slot.read name ≠ "self.cost" := by
  intro h
  have hsecond := second_read name
  rw [h] at hsecond
  exact absurd hsecond (by decide)

theorem regular_shop : Regular (shop n cost name s) :=
  ((regular_uniform n).update (by decide +kernel) cost).update (read_notMem_tableNames name) s

theorem shop_slot : shop n cost name s (Slot.read name) = .number s :=
  Function.update_self ..

theorem shop_price : shop n cost name s "self.cost" = .number cost := by
  rw [shop, Function.update_of_ne (read_ne_price name).symm, Function.update_self]

theorem eval_shop {r : Gauge} (hr : r ∈ gauges) (chance : Chance) :
    r.expr.eval chance (shop n cost name s) = some [.number n] := by
  have hnames : ∀ r ∈ gauges, ∀ other ∈ r.names,
      other ≠ "self.cost" ∧ other.toList[1]? ≠ some 'a' := by
    decide +kernel
  rw [← eval_uniform hr n chance]
  refine Expr.eval_congr fun other hother => ?_
  rw [Gauge.paths_expr] at hother
  obtain ⟨hcost, hsecond⟩ := hnames r hr other hother
  have hslot : other ≠ Slot.read name := by
    rintro rfl
    exact hsecond (second_read name)
  rw [shop, Function.update_of_ne hslot, Function.update_of_ne hcost]

end Shop

theorem exists_floor_lt {a b : ℚ} (hab : b < a) (ha : 0 < a) :
    ∃ n : ℕ, max 0 ((⌊n * b⌋ : ℤ) : ℚ) < max 0 ((⌊n * a⌋ : ℤ) : ℚ) := by
  obtain ⟨n, hn⟩ := exists_nat_ge (1 / min a (a - b))
  have hmin : 0 < min a (a - b) := lt_min ha (sub_pos.mpr hab)
  rw [div_le_iff₀ hmin] at hn
  have hnonneg : (0 : ℚ) ≤ n := Nat.cast_nonneg n
  have hlow : (1 : ℚ) ≤ n * a := hn.trans (mul_le_mul_of_nonneg_left (min_le_left _ _) hnonneg)
  have hgap : (1 : ℚ) ≤ n * (a - b) :=
    hn.trans (mul_le_mul_of_nonneg_left (min_le_right _ _) hnonneg)
  have hone : (1 : ℤ) ≤ ⌊n * a⌋ := Int.le_floor.mpr (by exact_mod_cast hlow)
  have hless : ⌊n * b⌋ ≤ ⌊n * a⌋ - 1 := by
    rw [← Int.floor_sub_one]
    exact Int.floor_le_floor (by linarith)
  refine ⟨n, lt_max_of_lt_right (max_lt ?_ ?_)⟩
  · exact_mod_cast Int.lt_of_lt_of_le Int.zero_lt_one hone
  · exact_mod_cast Int.lt_of_le_sub_one hless

theorem exists_floor_ne {a b : ℚ} (h : a ≠ b) :
    ∃ c : ℚ, max 0 ((⌊c * a⌋ : ℤ) : ℚ) ≠ max 0 ((⌊c * b⌋ : ℤ) : ℚ) := by
  have hless : ∀ {a b : ℚ}, b < a →
      ∃ c : ℚ, max 0 ((⌊c * a⌋ : ℤ) : ℚ) ≠ max 0 ((⌊c * b⌋ : ℤ) : ℚ) := by
    intro a b hab
    by_cases ha : 0 < a
    · obtain ⟨n, hn⟩ := exists_floor_lt hab ha
      exact ⟨n, hn.ne'⟩
    · -- Neither part is positive, so the price is not either.
      obtain ⟨n, hn⟩ := exists_floor_lt (neg_lt_neg hab) (by linarith : 0 < -b)
      exact ⟨-n, by simpa using hn.ne⟩
  rcases lt_or_gt_of_ne h with hlt | hlt
  · obtain ⟨c, hc⟩ := hless hlt
    exact ⟨c, hc.symm⟩
  · exact hless hlt

/-- A sum behind a minus sign gives another price, if the reading counts or the offset is a part of
a hundred. -/
theorem exists_outcome_ne {percentage : Bool} {s f : ℚ} (hs : s ≠ 0)
    (hf : percentage = true ∨ f ≠ 0) :
    ∃ (n : ℕ) (cost : ℚ),
      outcome percentage cost (if percentage then 1 - s + n * f / 100 else cost - s + n * f) ≠
        discounted percentage cost (s + n * f) := by
  cases percentage with
  | true =>
    have hne : 1 - s + (0 : ℕ) * f / 100 ≠ 1 - (s + (0 : ℕ) * f) / 100 := by
      intro heq
      apply hs
      push_cast at heq
      linarith
    obtain ⟨c, hc⟩ := exists_floor_ne hne
    exact ⟨0, c, hc⟩
  | false =>
    have hf : f ≠ 0 := by simpa using hf
    refine ⟨1, s + |f|, ?_⟩
    simp only [outcome, discounted, Nat.cast_one, one_mul, Bool.false_eq_true, if_false]
    rcases lt_or_gt_of_ne hf with hlt | hgt
    · rw [abs_of_neg hlt, max_eq_left (by linarith), max_eq_right (by linarith)]
      intro heq
      linarith
    · rw [abs_of_pos hgt, max_eq_right (by linarith), max_eq_left (by linarith)]
      intro heq
      linarith

end JokerRules
