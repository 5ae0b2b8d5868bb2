import JokerRules.Passive
import JokerRules.Proofs.HeldInverse
import JokerRules.Proofs.Operands
import JokerRules.Proofs.SharedOverrides
import Mathlib.Data.Rat.Floor

/-! Statements that lower a price. They have the amount of the discount behind a minus sign,
without parentheses: an amount that is one term is taken off as a whole, of a sum only the first
summand is. -/

namespace JokerRules

open Expressions

def mathValue? (chance : Chance) : Functions := fun function args =>
  match args with
  | [.number a, .number b] => if function = "math.max" then some [.number (max a b)] else none
  | [.number a] => if function = "math.floor" then some [.number (⌊a⌋ : ℤ)] else none
  | _ => callValue? chance function args

abbrev priced (chance : Chance) (g : Game) : Meaning (Option (List Datum)) :=
  .exact (mathValue? chance) g

/-- On its own, the text is worth the number. -/
def Worth (chance : Chance) (g : Game) (text : String) (v : ℚ) : Prop :=
  (priced chance g).value? (amounts.tokens text) = some (some [.number v])

/-- The text is one statement, which sets the price to the number. -/
def SetsPrice (chance : Chance) (g : Game) (text : String) (q : ℚ) : Prop :=
  ∃ e, commands? text = some [.assign "self.cost" e] ∧
    e.under (priced chance g) = some [.number q]

def discounted (percentage : Bool) (cost v : ℚ) : ℚ :=
  if percentage then max 0 (⌊cost * (1 - v / 100)⌋ : ℤ) else max 0 (cost - v)

theorem under_of_eval {chance : Chance} {g : Game} {e : Expr} {ds : List Datum}
    (h : e.eval chance g = some ds) : e.under (priced chance g) = some ds := by
  rw [Expr.eval_eq_under] at h
  refine Expr.under_exact_mono (fun function args ds hcall => ?_) h
  unfold callValue? at hcall
  split at hcall
  · exact hcall
  · exact nomatch hcall

theorem worth_iff {chance : Chance} {g : Game} {n : Nat} {text : String} {x : Expr} {v : ℚ}
    (h : amounts.Denotes n text x) : Worth chance g text v ↔
      x.under (priced chance g) = some [.number v] := by
  rw [Worth, h.value?, Option.some_inj]

def priceExpr (y : Expr) : Expr :=
  .call "math.max" (.binary .comma (.number 0) y)

def percentageExpr (y : Expr) : Expr :=
  .call "math.floor" (.binary .multiply (.path "self.cost") y)

section Statements

variable {amount : String} {y : Expr} {chance : Chance} {g : Game}

theorem denotes_one {n : Nat} : amounts.Denotes n "1" (.number 1) :=
  denotes_digits 1

theorem denotes_hundred {n : Nat} : amounts.Denotes n "100" (.number 100) :=
  denotes_digits 100

theorem denotes_price {text : String} (h : amounts.Denotes 1 text y) :
    DenotesCommand ("self.cost = math.max(0, " ++ text ++ ")") (.assign "self.cost" (priceExpr y)) := by
  have htext : "self.cost = math.max(0, " ++ text ++ ")" = "self.cost" ++ " = " ++
      ("math.max" ++ "(" ++ ("0" ++ Operator.comma.between ++ text) ++ ")") := by
    apply String.toList_inj.mp
    simp [Operator.between]
  rw [htext]
  refine Lexicon.Denotes.assign (by decide) (n := 0) (.call (by decide) (m := 0) ?_)
  exact .binary .comma le_rfl Gauge.denotes_zero h

theorem denotes_percentage {text : String} (h : amounts.Denotes 1 text y) :
    amounts.Denotes 1 ("math.floor(self.cost * (" ++ text ++ "))") (percentageExpr y) := by
  have htext : "math.floor(self.cost * (" ++ text ++ "))" = "math.floor" ++ "(" ++
      ("self.cost" ++ Operator.multiply.between ++ ("(" ++ text ++ ")")) ++ ")" := by
    apply String.toList_inj.mp
    simp [Operator.between]
  rw [htext]
  refine .call (by decide) (m := 1) (.binary .multiply (by decide) ?_ (h.paren le_rfl))
  exact .path (by decide)

theorem setsPrice_of_denotes {text : String} {q : ℚ} (h : DenotesCommand text (.assign "self.cost" y))
    (hy : y.under (priced chance g) = some [.number q]) : SetsPrice chance g text q := by
  refine ⟨y, ?_, hy⟩
  have hone := commands?_unlines (List.Forall₂.cons h .nil) (List.cons_ne_nil text [])
  simpa [Text.unlines] using hone

theorem under_priceExpr {q : ℚ} (hy : y.under (priced chance g) = some [.number q]) :
    (priceExpr y).under (priced chance g) = some [.number (max 0 q)] := by
  simp [priceExpr, hy, Operator.apply?, mathValue?]

theorem under_percentageExpr {cost q : ℚ} (hcost : g "self.cost" = .number cost)
    (hy : y.under (priced chance g) = some [.number q]) :
    (percentageExpr y).under (priced chance g) = some [.number (⌊cost * q⌋ : ℤ)] := by
  simp [percentageExpr, hy, hcost, Operator.apply?, mathValue?]

end Statements

/-- What is cut down to a price: the rest of it, or the part of it that is left. -/
def remainder (percentage : Bool) (amount : String) : String :=
  if percentage then "1 - " ++ amount ++ " / 100" else "self.cost - " ++ amount

def lowering (percentage : Bool) (amount : String) : String :=
  if percentage then
    "self.cost = math.max(0, " ++ ("math.floor(self.cost * (" ++ remainder true amount ++ "))") ++ ")"
  else "self.cost = math.max(0, " ++ remainder false amount ++ ")"

theorem discount_eq (r : OverrideRequest) :
    r.discount = lowering (r.param "mode" = "percentage") (r.param "amount") := by
  have htext : r.discount = if r.param "mode" = "percentage" then
      "self.cost = math.max(0, math.floor(self.cost * (1 - " ++ r.param "amount" ++ " / 100)))"
    else "self.cost = math.max(0, self.cost - " ++ r.param "amount" ++ ")" := rfl
  have hwhole : "self.cost = math.max(0, self.cost - " =
      "self.cost = math.max(0, " ++ "self.cost - " := by decide
  have hpart : "self.cost = math.max(0, math.floor(self.cost * (1 - " =
      "self.cost = math.max(0, " ++ "math.floor(self.cost * (" ++ "1 - " := by decide
  have hstop : " / 100)))" = " / 100" ++ "))" ++ ")" := by decide
  rw [htext]
  by_cases hmode : r.param "mode" = "percentage"
  · rw [if_pos hmode, decide_eq_true hmode, hpart, hstop]
    simp only [lowering, remainder, if_true, String.append_assoc]
  · rw [if_neg hmode, decide_eq_false hmode, hwhole]
    simp only [lowering, remainder, Bool.false_eq_true, if_false, String.append_assoc]

/-- The price by what is left, or by the part that is left. -/
def outcome (percentage : Bool) (cost q : ℚ) : ℚ :=
  if percentage then max 0 (⌊cost * q⌋ : ℤ) else max 0 q

theorem discounted_eq (percentage : Bool) (cost v : ℚ) :
    discounted percentage cost v =
      outcome percentage cost (if percentage then 1 - v / 100 else cost - v) := by
  cases percentage <;> rfl

theorem setsPrice_lowering {percentage : Bool} {amount : String} {y : Expr} {chance : Chance}
    {g : Game} {cost q : ℚ} (h : amounts.Denotes 1 (remainder percentage amount) y)
    (hcost : g "self.cost" = .number cost) (hy : y.under (priced chance g) = some [.number q]) :
    SetsPrice chance g (lowering percentage amount) (outcome percentage cost q) := by
  cases percentage with
  | true =>
    exact setsPrice_of_denotes (denotes_price (denotes_percentage h))
      (under_priceExpr (under_percentageExpr hcost hy))
  | false => exact setsPrice_of_denotes (denotes_price h) (under_priceExpr hy)

section Term

variable {amount : String} {x : Expr} {chance : Chance} {g : Game}

def remainderExpr (percentage : Bool) (x : Expr) : Expr :=
  if percentage then .binary .subtract (.number 1) (.binary .divide x (.number 100))
  else .binary .subtract (.path "self.cost") x

theorem denotes_remainder (h : amounts.Denotes Operator.multiply.level amount x) (percentage : Bool) :
    amounts.Denotes 1 (remainder percentage amount) (remainderExpr percentage x) := by
  cases percentage with
  | true =>
    have htext : remainder true amount =
        "1" ++ Operator.subtract.between ++ (amount ++ Operator.divide.between ++ "100") := by
      apply String.toList_inj.mp
      simp [remainder, Operator.between]
    rw [htext]
    exact .binary .subtract (by decide) denotes_one (.binary .divide le_rfl h denotes_hundred)
  | false =>
    have htext : remainder false amount = "self.cost" ++ Operator.subtract.between ++ amount := by
      apply String.toList_inj.mp
      simp [remainder, Operator.between]
    rw [htext]
    exact .binary .subtract (by decide) (.path (by decide)) h

theorem under_remainderExpr {cost v : ℚ} (hcost : g "self.cost" = .number cost)
    (hx : x.under (priced chance g) = some [.number v]) (percentage : Bool) :
    (remainderExpr percentage x).under (priced chance g) =
      some [.number (if percentage then 1 - v / 100 else cost - v)] := by
  cases percentage <;> simp [remainderExpr, hx, hcost, Operator.apply?]

theorem setsPrice_term (h : amounts.Denotes Operator.multiply.level amount x) {cost v : ℚ}
    (hcost : g "self.cost" = .number cost) (hworth : Worth chance g amount v) (percentage : Bool) :
    SetsPrice chance g (lowering percentage amount) (discounted percentage cost v) := by
  rw [discounted_eq]
  exact setsPrice_lowering (denotes_remainder h percentage) hcost
    (under_remainderExpr hcost ((worth_iff h).mp hworth) percentage)

end Term

section Sum

variable {slot text : String} {y : Expr} {chance : Chance} {g : Game}

/-- The minus sign takes the first term, and the division the second one. -/
def sumRemainderExpr (percentage : Bool) (slot : String) (y : Expr) : Expr :=
  if percentage then
    .binary .add (.binary .subtract (.number 1) (.path slot)) (.binary .divide y (.number 100))
  else .binary .add (.binary .subtract (.path "self.cost") (.path slot)) y

theorem denotes_sumRemainder (hslot : amounts.IsPath slot)
    (h : amounts.Denotes Operator.multiply.level text y)
    (percentage : Bool) :
    amounts.Denotes 1 (remainder percentage (slot ++ Operator.add.between ++ text))
      (sumRemainderExpr percentage slot y) := by
  cases percentage with
  | true =>
    have htext : remainder true (slot ++ Operator.add.between ++ text) =
        ("1" ++ Operator.subtract.between ++ slot) ++ Operator.add.between ++
          (text ++ Operator.divide.between ++ "100") := by
      apply String.toList_inj.mp
      simp [remainder, Operator.between]
    rw [htext]
    exact .binary .add (by decide) (.binary .subtract le_rfl denotes_one (.path hslot))
      (.binary .divide le_rfl h denotes_hundred)
  | false =>
    have htext : remainder false (slot ++ Operator.add.between ++ text) =
        ("self.cost" ++ Operator.subtract.between ++ slot) ++ Operator.add.between ++ text := by
      apply String.toList_inj.mp
      simp [remainder, Operator.between]
    rw [htext]
    exact .binary .add (by decide) (.binary .subtract le_rfl (.path (by decide)) (.path hslot)) h

theorem setsPrice_sum (hslot : amounts.IsPath slot) (h : amounts.Denotes Operator.multiply.level text y)
    {cost s t : ℚ} (hcost : g "self.cost" = .number cost) (hs : g slot = .number s)
    (hy : y.under (priced chance g) = some [.number t]) (percentage : Bool) :
    SetsPrice chance g (lowering percentage (slot ++ Operator.add.between ++ text))
      (outcome percentage cost (if percentage then 1 - s + t / 100 else cost - s + t)) := by
  refine setsPrice_lowering (denotes_sumRemainder hslot h percentage) hcost ?_
  cases percentage <;> simp [sumRemainderExpr, hs, hy, hcost, Operator.apply?]

end Sum

end JokerRules
