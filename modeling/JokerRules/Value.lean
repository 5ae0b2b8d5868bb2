import JokerRules.Keyed
import JokerRules.Number.Decimal
import JokerRules.Text.Blank
import JokerRules.Text.Quoted

/-!
Parameter values as authored, and the parameter maps of conditions and effects. A look-up never
fails: a missing or mistyped parameter reads as absent.
-/

namespace JokerRules

inductive Value
  | bool (b : Bool)
  | int (n : Int64)
  | real (x : Binary64)
  | str (s : String)
deriving DecidableEq, Inhabited

namespace Value

/-- The number a value stands for. Text that reads as a number counts as one. -/
def number? : Value → Option Binary64
  | bool _ => none
  | int n => some (.ofInt n.toInt)
  | real x => some x
  | str s => Binary64.read? (Text.trim s)

def str? : Value → Option String
  | str s => some s
  | _ => none

/-- Whether the value is its own content, rather than naming something to be read. -/
def isLiteral : Value → Bool
  | str s => (Binary64.read? (Text.trim s)).isSome
  | _ => true

/-- The value as a literal of the generated code. -/
def literal : Value → String
  | bool b => if b then "true" else "false"
  | int n => toString n.toInt
  | real x => x.literal
  | str s => Text.quote s

/-- Equality of content, which does not tell the two zeros apart. -/
def sameAs : Value → Value → Bool
  | real x, real y => x.equals y
  | v, w => v == w

/-- A whole number below nine quadrillions is an integer, any other a real. -/
def ofNumber (x : Binary64) : Value :=
  if x.isWhole && x.wholePart < 9000000000000000 then int (Int64.ofInt x.toInt) else real x

end Value

abbrev Params := Keyed Value

namespace Params

/-- The trimmed text under a key, unless it is blank. -/
def text? (p : Params) (key : String) : Option String :=
  ((p.get? key).bind Value.str?).bind Text.nonblank?

def textOr (p : Params) (key default : String) : String :=
  (p.text? key).getD default

def number? (p : Params) (key : String) : Option Binary64 :=
  (p.get? key).bind Value.number?

def numberOr (p : Params) (key : String) (default : Binary64) : Binary64 :=
  (p.number? key).getD default

/-- The number under a key cut to a counting number of 32 bits. -/
def countOr (p : Params) (key : String) (default : UInt32) : UInt32 :=
  match p.number? key with
  | some x => if x.negative || x.isNan then 0 else UInt32.ofNat (min x.wholePart 4294967295)
  | none => default

def flag (p : Params) (key : String) : Bool :=
  p.get? key == some (.bool true)

end Params

end JokerRules
