/-!
Binary floating-point numbers of 64 bits, given by their three fields. Every triple of fields is a
number of the format, so equality of numbers is equality of fields.
-/

namespace JokerRules

/-- The bit above the fraction, `2 ^ 52`. -/
abbrev Binary64.hiddenBit : Nat := 0x10000000000000

structure Binary64 where
  negative : Bool
  exponent : Fin 2048
  fraction : Fin Binary64.hiddenBit
deriving DecidableEq, Repr

namespace Binary64

instance : @NeZero Nat Zero.ofOfNat0 hiddenBit := ⟨by decide⟩

def zero (negative : Bool) : Binary64 := ⟨negative, 0, 0⟩

def infinity (negative : Bool) : Binary64 := ⟨negative, 2047, 0⟩

def nan : Binary64 := ⟨false, 2047, Fin.ofNat _ (hiddenBit / 2)⟩

def one : Binary64 := ⟨false, 1023, 0⟩

def isFinite (x : Binary64) : Bool :=
  x.exponent != 2047

def isNan (x : Binary64) : Bool :=
  x.exponent == 2047 && x.fraction != 0

def isZero (x : Binary64) : Bool :=
  x.exponent == 0 && x.fraction == 0

/-- The magnitude of a finite number is `significand * 2 ^ power`. -/
def significand (x : Binary64) : Nat :=
  if x.exponent = 0 then x.fraction else hiddenBit + x.fraction

def power (x : Binary64) : Int :=
  max (x.exponent : Int) 1 - 1075

/-- Numerical equality: the two zeros are equal, and a number that is none equals nothing. -/
def equals (x y : Binary64) : Bool :=
  !x.isNan && (x == y || (x.isZero && y.isZero))

/-- `num / den` in whole units, a half going to the even neighbour. -/
def roundRatio (num den : Nat) : Nat :=
  let q := num / den
  let r := num % den
  if den < 2 * r || (2 * r == den && q % 2 == 1) then q + 1 else q

/-- Numerator and denominator of `num / den / 2 ^ power`. -/
def scaleDown (num den : Nat) (power : Int) : Nat × Nat :=
  (num <<< (-power).toNat, den <<< power.toNat)

/-- The number with the given significand and power, infinite if it is too large. The significand is
at most `2 ^ 53`, and below `2 ^ 52` only at the least power. -/
def pack (negative : Bool) (significand : Nat) (power : Int) : Binary64 :=
  if significand < hiddenBit then ⟨negative, 0, Fin.ofNat _ significand⟩
  else if significand = 2 * hiddenBit then
    if power + 1076 < 2047 then ⟨negative, Fin.ofNat _ (power + 1076).toNat, 0⟩
    else infinity negative
  else if power + 1075 < 2047 then
    ⟨negative, Fin.ofNat _ (power + 1075).toNat, Fin.ofNat _ (significand - hiddenBit)⟩
  else infinity negative

/-- The number nearest to `num / den`, a tie going to the even significand. -/
def nearest (negative : Bool) (num den : Nat) : Binary64 :=
  if num = 0 then zero negative
  else
    let low := max ((num.log2 : Int) - den.log2 - 53) (-1074)
    let (n, d) := scaleDown num den low
    let power := if n / d < 2 * hiddenBit then low else low + 1
    let (n, d) := scaleDown num den power
    pack negative (roundRatio n d) power

def ofInt (n : Int) : Binary64 :=
  nearest (n < 0) n.natAbs 1

/-- The magnitude of a finite number without its fractional part. -/
def wholePart (x : Binary64) : Nat :=
  x.significand <<< x.power.toNat >>> (-x.power).toNat

def isWhole (x : Binary64) : Bool :=
  x.isFinite && x.significand % (1 <<< (-x.power).toNat) == 0

/-- The number without its fractional part; the sign stays. -/
def truncate (x : Binary64) : Binary64 :=
  if x.isFinite then nearest x.negative x.wholePart 1 else x

/-- The number without its fractional part, as an integer. -/
def toInt (x : Binary64) : Int :=
  if x.negative then -(x.wholePart : Int) else x.wholePart

end Binary64

end JokerRules
