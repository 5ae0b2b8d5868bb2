import JokerRules.Number.Binary64

/-!
Decimal text of binary numbers. Reading rounds to the nearest number; writing gives the fewest
digits that read back, and among those the nearest.
-/

namespace JokerRules

/-- The value of a list of decimal digits. -/
def digitsValue (ds : List Char) : Nat :=
  ds.foldl (fun n d => 10 * n + (d.toNat - '0'.toNat)) 0

def digitCount (n : Nat) : Nat :=
  (Nat.toDigits 10 n).length

namespace Binary64

/-- The finite number nearest to the value of the digits times `10 ^ exponent`, if there is one.
Magnitudes far outside the range of the format are settled without computing the power. -/
def ofDecimal? (negative : Bool) (digits : List Char) (exponent : Int) : Option Binary64 :=
  let ds := digits.dropWhile (· == '0')
  if ds.isEmpty then some (zero negative)
  else
    let magnitude := exponent + ds.length
    if 400 < magnitude then none
    else if magnitude < -400 then some (zero negative)
    else
      let coefficient := digitsValue ds
      let x := nearest negative (coefficient * Nat.pow 10 exponent.toNat)
        (Nat.pow 10 (-exponent).toNat)
      if x.isFinite then some x else none

/-- Takes a sign off the front: whether it is a minus, and the rest. -/
def takeSign : List Char → Bool × List Char
  | '-' :: cs => (true, cs)
  | '+' :: cs => (false, cs)
  | cs => (false, cs)

/-- The exponent part of a number: nothing, or a mark, a sign and digits. -/
def readExponent? : List Char → Option Int
  | [] => some 0
  | c :: cs =>
    if c = 'e' || c = 'E' then
      let (negative, ds) := takeSign cs
      if ds.isEmpty || !ds.all Char.isDigit then none
      else if negative then some (-(digitsValue ds : Int))
      else some (digitsValue ds)
    else none

/-- The fractional digits and what follows them. -/
def takeFraction : List Char → List Char × List Char
  | '.' :: cs => (cs.takeWhile Char.isDigit, cs.dropWhile Char.isDigit)
  | cs => ([], cs)

/-- Reads a decimal number: a sign, digits with a point anywhere among them, an exponent. Text that
is no number, or too large for the format, gives nothing. -/
def read? (s : String) : Option Binary64 :=
  let (negative, cs) := takeSign s.toList
  let whole := cs.takeWhile Char.isDigit
  let (fraction, rest) := takeFraction (cs.dropWhile Char.isDigit)
  if whole.isEmpty && fraction.isEmpty then none
  else
    (readExponent? rest).bind fun exponent =>
      ofDecimal? negative (whole ++ fraction) (exponent - fraction.length)

/-- How many tens `num` has to be multiplied by to reach `den`, up to the given bound. -/
def tensToReach : Nat → Nat → Nat → Nat
  | 0, _, _ => 0
  | bound + 1, num, den => if den ≤ num then 0 else tensToReach bound (num * 10) den + 1

/-- The `d` with `10 ^ d ≤ num / den < 10 ^ (d + 1)`. -/
def decade (num den : Nat) : Int :=
  if den ≤ num then (digitCount (num / den) : Int) - 1
  else -(tensToReach 400 num den : Int)

/-- A positive number and the bounds of what rounds to it, over one denominator. -/
structure Interval where
  low : Nat
  value : Nat
  high : Nat
  den : Nat
  closed : Bool

/-- The reals that round to a nonzero finite number. Below a power of two the gap is half
as wide. -/
def interval (x : Binary64) : Interval :=
  let scale := 1 <<< x.power.toNat
  let below := if x.fraction = 0 && 1 < x.exponent.val then 1 else 2
  { low := (4 * x.significand - below) * scale
    value := 4 * x.significand * scale
    high := (4 * x.significand + 2) * scale
    den := 4 <<< (-x.power).toNat
    closed := x.significand % 2 == 0 }

/-- The multiple of `10 ^ k` next to the value, among the two around it, that lies in the interval;
a tie goes up. -/
def Interval.onGrid? (i : Interval) (k : Int) : Option Nat :=
  let up := Nat.pow 10 (-k).toNat
  let den := i.den * Nat.pow 10 k.toNat
  let q := i.value * up / den
  let r := i.value * up % den
  let lowIn := i.low * up < q * den || (i.closed && i.low * up == q * den)
  let highIn := (q + 1) * den < i.high * up || (i.closed && (q + 1) * den == i.high * up)
  if lowIn && (!highIn || 2 * r < den) then some q
  else if highIn then some (q + 1)
  else none

/-- A coefficient and a power of ten. -/
def Interval.shortest (i : Interval) : Nat × Int :=
  let top := decade i.value i.den
  let grids := (List.range 17).map fun n => top - (n : Nat)
  match grids.findSome? fun k => (i.onGrid? k).map fun c => (c, k) with
  | some (c, k) => if c % 10 = 0 then (c / 10, k + 1) else (c, k)
  | none => (i.value / i.den, 0)

/-- `coefficient * 10 ^ exponent` written out without an exponent. -/
def positional (coefficient : Nat) (exponent : Int) : List Char :=
  let ds := Nat.toDigits 10 coefficient
  let places := (-exponent).toNat
  if places = 0 then ds ++ List.replicate exponent.toNat '0'
  else if places < ds.length then
    ds.take (ds.length - places) ++ '.' :: ds.drop (ds.length - places)
  else '0' :: '.' :: (List.replicate (places - ds.length) '0' ++ ds)

/-- The magnitude of a finite number in the fewest digits that read back. -/
def magnitudeDigits (x : Binary64) : List Char :=
  if x.isZero then ['0']
  else
    let (coefficient, exponent) := x.interval.shortest
    positional coefficient exponent

/-- A number literal of the generated code. -/
def literal (x : Binary64) : String :=
  if x.isNan then "(0/0)"
  else if !x.isFinite then if x.negative then "-math.huge" else "math.huge"
  else if x.negative then String.ofList ('-' :: x.magnitudeDigits)
  else String.ofList x.magnitudeDigits

end Binary64

end JokerRules
