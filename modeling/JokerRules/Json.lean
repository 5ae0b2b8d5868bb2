import JokerRules.Number.Binary64

/-!
JSON values. A number written without a point and an exponent is an integer; any other is a real.
-/

namespace JokerRules

inductive Json
  | null
  | bool (b : Bool)
  | int (n : Int)
  | real (x : Binary64)
  | str (s : String)
  | arr (elements : List Json)
  | obj (members : List (String × Json))
deriving Inhabited

namespace Json

def member? (members : List (String × Json)) (name : String) : Option Json :=
  members.lookup name

def str? : Json → Option String
  | str s => some s
  | _ => none

def bool? : Json → Option Bool
  | bool b => some b
  | _ => none

def arr? : Json → Option (List Json)
  | arr es => some es
  | _ => none

def obj? : Json → Option (List (String × Json))
  | obj ms => some ms
  | _ => none

/-- A counting number of 32 bits. -/
def word? : Json → Option UInt32
  | int n => if 0 ≤ n ∧ n < UInt32.size then some (UInt32.ofNat n.toNat) else none
  | _ => none

/-- Any number, an integer being rounded to the nearest real. -/
def number? : Json → Option Binary64
  | int n => some (.ofInt n)
  | real x => some x
  | _ => none

/-- The members of a record: an object's own, or the elements of an array in the order of the
record's fields. -/
def record? (fields : List String) : Json → Option (List (String × Json))
  | obj ms => some ms
  | arr es => if es.length ≤ fields.length then some (fields.zip es) else none
  | _ => none

/-- The name of a choice without data: a string, or an object that binds the one name to null. -/
def choice? : Json → Option String
  | str s => some s
  | obj [(s, null)] => some s
  | _ => none

end Json

end JokerRules
