import JokerRules.Proofs.PriceStatements

/-! Amounts of discounts that are sums. A reading of the game's state with an offset is one, every
other amount is one term. -/

namespace JokerRules

open Expressions

def scaledText (template : String) (multiplier : Binary64) : String :=
  if multiplier.equals .one then "(" ++ template ++ ")"
  else "(" ++ template ++ ") * " ++ multiplier.literal

def scaledExpr (x : Expr) (multiplier : Binary64) : Expr :=
  if multiplier.equals .one then x else .binary .multiply x multiplier.literalExpr

section Shifted

variable {template slot : String} {x : Expr} {multiplier offset : Binary64} {chance : Chance} {g : Game}

theorem affine_eq_sum (h : offset.equals (.zero false) = false) :
    Amount.affine template multiplier offset slot =
      slot ++ Operator.add.between ++ scaledText template multiplier := by
  apply String.toList_inj.mp
  unfold Amount.affine scaledText
  by_cases hone : multiplier.equals .one = true <;> simp [h, hone, Operator.between]

theorem denotes_scaledText (hx : amounts.Denotes 1 template x) (hm : multiplier.isFinite = true) :
    amounts.Denotes Operator.multiply.level (scaledText template multiplier)
      (scaledExpr x multiplier) := by
  unfold scaledText scaledExpr
  split
  · exact hx.paren le_rfl
  · exact denotes_scaled hx hm

theorem under_literalExpr (y : Binary64) :
    y.literalExpr.under (priced chance g) = some [.number y.decimal] :=
  under_of_eval (Binary64.eval_literalExpr y chance g)

theorem under_scaledExpr (multiplier : Binary64) {t : ℚ}
    (hx : x.under (priced chance g) = some [.number t]) :
    (scaledExpr x multiplier).under (priced chance g) = some [.number (t * factor multiplier)] := by
  unfold scaledExpr factor
  split
  · simpa using hx
  · simp [hx, under_literalExpr, Operator.apply?]

theorem apply?_add_eq {a b : Option (List Datum)} {v : ℚ}
    (h : Operator.add.apply? a b = some [.number v]) :
    ∃ p q, a = some [.number p] ∧ b = some [.number q] ∧ v = p + q := by
  unfold Operator.apply? at h
  split at h <;> simp_all

theorem apply?_multiply_eq {a b : Option (List Datum)} {v : ℚ}
    (h : Operator.multiply.apply? a b = some [.number v]) :
    ∃ p q, a = some [.number p] ∧ b = some [.number q] ∧ v = p * q := by
  unfold Operator.apply? at h
  split at h <;> simp_all

/-- What is counted zero times adds nothing. -/
theorem scaledExpr_eq_zero {t : ℚ} (hm : multiplier.isZero = true)
    (h : (scaledExpr x multiplier).under (priced chance g) = some [.number t]) : t = 0 := by
  rw [scaledExpr, equals_one_of_isZero hm, if_neg Bool.false_ne_true, Expr.under_binary] at h
  obtain ⟨p, q, -, hq, rfl⟩ := apply?_multiply_eq h
  rw [under_literalExpr, Binary64.decimal_eq_zero_iff.mpr hm] at hq
  obtain rfl : 0 = q := by simpa using hq
  exact mul_zero p

end Shifted

theorem equals_zero {x : Binary64} (h : x.isFinite = true) :
    x.equals (.zero false) = x.isZero := by
  have hnan : x.isNan = false := by
    have hexp : x.exponent ≠ 2047 := by simpa [Binary64.isFinite] using h
    simp [Binary64.isNan, hexp]
  by_cases heq : x = .zero false
  · rw [heq]
    rfl
  · have hzero : (Binary64.zero false).isZero = true := rfl
    simp [Binary64.equals, hnan, heq, hzero]

/-- Only an encoding makes a reading of the game's state. -/
theorem ofValue_of_state {value : Value} {id hint template offsetExpr : String} {registry : Registry}
    {captures : Captures} {multiplier offset : Binary64}
    (h : (Resolved.ofValue value id hint registry captures).amount =
      .state template multiplier offset offsetExpr) :
    ∃ raw gameId, value = .str raw ∧
      Encoding.parse raw = .ok (.gameState gameId multiplier offset) ∧
      (registry.get? gameId).isSome = true := by
  unfold Resolved.ofValue at h
  split at h
  · next raw =>
    split at h
    · split at h
      · next gameId m o hparse =>
        cases hvar : registry.get? gameId with
        | none => simp [Resolved.ofGameState, hvar] at h
        | some var =>
          have hamount : (Resolved.ofGameState gameId m o registry).amount =
              .state var.template m o (Slot.read (offsetName var.label)) := by
            simp only [Resolved.ofGameState, hvar]
            split <;> rfl
          obtain ⟨-, rfl, rfl, -⟩ := Amount.state.inj (hamount.symm.trans h)
          exact ⟨raw, gameId, rfl, hparse, by rw [hvar]; rfl⟩
      · cases h
      · cases h
    · split at h
      · cases h
      · simp only [Resolved.ofReference] at h
        split at h
        · cases h
        · split at h <;> cases h
  · cases h

/-- The encoding of a reading whose minus sign is lost on a part of it: there is an offset, and the
reading counts, or the offset is a part of a hundred. -/
def Misgrouped (percentage : Bool) (value : Value) : Prop :=
  ∃ raw id multiplier offset, value = .str raw ∧
    Encoding.parse raw = .ok (.gameState id multiplier offset) ∧
    (Registry.builtin.get? id).isSome = true ∧ offset.isZero = false ∧
    (percentage = true ∨ multiplier.isZero = false)

namespace Amount

/-- A reading of the game's state to which an offset from a slot is added. -/
structure IsSum (a : Amount) (name : String) (r : Gauge) (multiplier offset : Binary64) : Prop where
  amount : a = .state r.text multiplier offset (Slot.read name)
  gauge : r ∈ gauges
  slot : amounts.IsPath (Slot.read name)
  finite : multiplier.isFinite = true
  shifted : offset.equals (.zero false) = false

namespace IsSum

variable {a : Amount} {name : String} {r : Gauge} {multiplier offset : Binary64} {chance : Chance}
  {g : Game}

theorem expr_eq (h : a.IsSum name r multiplier offset) :
    a.expr = Slot.read name ++ Operator.add.between ++ scaledText r.text multiplier := by
  rw [h.amount]
  exact affine_eq_sum h.shifted

theorem denotes (h : a.IsSum name r multiplier offset) :
    amounts.Denotes Operator.multiply.level (scaledText r.text multiplier)
      (scaledExpr r.expr multiplier) :=
  denotes_scaledText ((Gauge.denotes (isPath_gauges r h.gauge)).mono (by decide)) h.finite

theorem worth_iff (h : a.IsSum name r multiplier offset) {v : ℚ} : Worth chance g a.expr v ↔
    ∃ s t, g (Slot.read name) = .number s ∧
      (scaledExpr r.expr multiplier).under (priced chance g) = some [.number t] ∧ v = s + t := by
  have hsum : amounts.Denotes Operator.add.level
      (Slot.read name ++ Operator.add.between ++ scaledText r.text multiplier) _ :=
    .binary .add le_rfl (.path h.slot) h.denotes
  rw [h.expr_eq, JokerRules.worth_iff hsum, Expr.under_binary, Expr.under_path]
  constructor
  · intro hworth
    obtain ⟨s, t, hs, ht, rfl⟩ := apply?_add_eq hworth
    exact ⟨s, t, by simpa using hs, ht, rfl⟩
  · rintro ⟨s, t, hs, ht, rfl⟩
    rw [hs, ht]
    rfl

/-- In the statement, the price loses the first term and gains the second. -/
theorem setsPrice (h : a.IsSum name r multiplier offset) {cost s t : ℚ}
    (hcost : g "self.cost" = .number cost) (hs : g (Slot.read name) = .number s)
    (ht : (scaledExpr r.expr multiplier).under (priced chance g) = some [.number t])
    (percentage : Bool) :
    SetsPrice chance g (lowering percentage a.expr)
      (outcome percentage cost (if percentage then 1 - s + t / 100 else cost - s + t)) := by
  rw [h.expr_eq]
  exact setsPrice_sum h.slot h.denotes hcost hs ht percentage

end IsSum

theorem Codes.term_or_sum {a : Amount} {x : Expr} (h : a.Codes x) :
    amounts.Denotes Operator.multiply.level a.expr x ∨
      ∃ name r multiplier offset, a.IsSum name r multiplier offset := by
  cases h with
  | zero => exact .inl Gauge.denotes_zero
  | stored h => exact .inl (.path (isPath_read h))
  | drawn seed h => exact .inl (denotes_drawn_bounds h seed _)
  | @state id var r multiplier offset hvar hr htemplate hm =>
    by_cases hzero : offset.equals (.zero false) = true
    · left
      have hgauge := Gauge.denotes (isPath_gauges r hr)
      show amounts.Denotes _ (affine var.template multiplier offset _) _
      rw [htemplate]
      by_cases hone : multiplier.equals .one = true
      · simp only [affine, affineExpr, shiftedExpr, hzero, hone, if_true]
        exact hgauge.mono (by decide)
      · simp only [affine, affineExpr, shiftedExpr, hzero, hone, if_true]
        exact denotes_scaled (hgauge.mono (by decide)) hm
    · exact .inr ⟨_, r, multiplier, offset, by rw [htemplate], hr,
        isPath_read (isNameChar_offsetName hvar), hm, Bool.eq_false_iff.mpr hzero⟩

end Amount

end JokerRules
