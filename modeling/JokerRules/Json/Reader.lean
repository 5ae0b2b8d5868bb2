import JokerRules.Json
import JokerRules.Number.Decimal

/-!
Reading JSON text. The readers work on the characters that are left and hand back the rest. Every
two steps take a character, so twice the length of the text is fuel enough.
-/

namespace JokerRules.Json

def isSpace (c : Char) : Bool :=
  c = ' ' || c = '\t' || c = '\n' || c = '\r'

def skipSpace (cs : List Char) : List Char :=
  cs.dropWhile isSpace

def hexDigit? (c : Char) : Option Nat :=
  if c.isDigit then some (c.toNat - 48)
  else if 'a' ≤ c && c ≤ 'f' then some (c.toNat - 87)
  else if 'A' ≤ c && c ≤ 'F' then some (c.toNat - 55)
  else none

/-- Four hexadecimal digits. -/
def readUnit : List Char → Option (Nat × List Char)
  | a :: b :: c :: d :: cs => do
    let a ← hexDigit? a
    let b ← hexDigit? b
    let c ← hexDigit? c
    let d ← hexDigit? d
    return (((a * 16 + b) * 16 + c) * 16 + d, cs)
  | _ => none

/-- The character of an escape by code units; a high surrogate needs its low partner. -/
def readCodePoint (cs : List Char) : Option (Char × List Char) := do
  let (unit, cs) ← readUnit cs
  if 0xd800 ≤ unit && unit < 0xdc00 then
    match cs with
    | '\\' :: 'u' :: cs =>
      let (low, cs) ← readUnit cs
      if 0xdc00 ≤ low && low < 0xe000 then
        return (Char.ofNat (0x10000 + (unit - 0xd800) * 0x400 + (low - 0xdc00)), cs)
      else none
    | _ => none
  else if 0xdc00 ≤ unit && unit < 0xe000 then none
  else return (Char.ofNat unit, cs)

def simpleEscape? (c : Char) : Option Char :=
  if c = '"' || c = '\\' || c = '/' then some c
  else if c = 'b' then some (Char.ofNat 8)
  else if c = 'f' then some (Char.ofNat 12)
  else if c = 'n' then some '\n'
  else if c = 'r' then some '\r'
  else if c = 't' then some '\t'
  else none

/-- The text of a string up to its closing quote, the escapes left as they are. -/
def takeString : List Char → Option (List Char × List Char)
  | [] => none
  | '"' :: cs => some ([], cs)
  | '\\' :: c :: cs => (takeString cs).map fun r => ('\\' :: c :: r.1, r.2)
  | c :: cs => (takeString cs).map fun r => (c :: r.1, r.2)

/-- The characters that the text of a string stands for; the fuel is its length. -/
def unescape : Nat → List Char → Option (List Char)
  | _, [] => some []
  | 0, _ :: _ => none
  | fuel + 1, c :: cs =>
    if c = '\\' then
      match cs with
      | 'u' :: cs => do
        let (c, cs) ← readCodePoint cs
        return c :: (← unescape fuel cs)
      | e :: cs => do
        return (← simpleEscape? e) :: (← unescape fuel cs)
      | [] => none
    else if c.toNat < 0x20 then none
    else (unescape fuel cs).map (c :: ·)

/-- A string whose opening quote has been taken. -/
def readString (cs : List Char) : Option (String × List Char) := do
  let (raw, cs) ← takeString cs
  return (String.ofList (← unescape raw.length raw), cs)

/-- Whether the digits of an integer have no needless zero in front. -/
def plainDigits : List Char → Bool
  | [] => false
  | ['0'] => true
  | c :: _ => c != '0'

/-- The fractional part of a number, with its point: one digit at least. -/
def takePointed? : List Char → Option (List Char × List Char)
  | '.' :: cs =>
    let ds := cs.takeWhile Char.isDigit
    if ds.isEmpty then none else some ('.' :: ds, cs.dropWhile Char.isDigit)
  | cs => some ([], cs)

/-- The exponent of a number, with its mark. -/
def takeExponent? : List Char → Option (List Char × List Char)
  | c :: cs =>
    if c = 'e' || c = 'E' then
      let sign := (cs.take 1).filter fun s => s = '+' || s = '-'
      let digits := cs.drop sign.length
      let ds := digits.takeWhile Char.isDigit
      if ds.isEmpty then none else some (c :: (sign ++ ds), digits.dropWhile Char.isDigit)
    else some ([], c :: cs)
  | [] => some ([], [])

/-- A number; none that is too large for a real. Minus zero has no integer, so it is a real. -/
def readNumber (cs : List Char) : Option (Json × List Char) := do
  let (negative, cs) := match cs with
    | '-' :: cs => (true, cs)
    | cs => (false, cs)
  let whole := cs.takeWhile Char.isDigit
  if !plainDigits whole then none
  else
    let (fraction, cs) ← takePointed? (cs.dropWhile Char.isDigit)
    let (exponent, cs) ← takeExponent? cs
    let sign := if negative then ['-'] else []
    let x ← Binary64.read? (String.ofList (sign ++ whole ++ fraction ++ exponent))
    if !fraction.isEmpty || !exponent.isEmpty || (negative && whole = ['0']) then
      return (real x, cs)
    else if negative then return (int (-(digitsValue whole : Int)), cs)
    else return (int (digitsValue whole), cs)

/-- How deep arrays and objects may stand in each other. -/
def maxDepth : Nat := 127

/-- Of the members with one name, the last. -/
def lastMembers : List (String × Json) → List (String × Json)
  | [] => []
  | m :: ms => if ms.any (·.1 == m.1) then lastMembers ms else m :: lastMembers ms

mutual

/-- A value in which arrays and objects may stand `room` levels deep. -/
def readValue : Nat → Nat → List Char → Option (Json × List Char)
  | 0, _, _ => none
  | fuel + 1, room, cs =>
    match skipSpace cs with
    | 'n' :: 'u' :: 'l' :: 'l' :: cs => some (null, cs)
    | 't' :: 'r' :: 'u' :: 'e' :: cs => some (bool true, cs)
    | 'f' :: 'a' :: 'l' :: 's' :: 'e' :: cs => some (bool false, cs)
    | '"' :: cs => (readString cs).map fun r => (str r.1, r.2)
    | '[' :: cs =>
      if room = 0 then none
      else match skipSpace cs with
        | ']' :: cs => some (arr [], cs)
        | cs => (readElements fuel (room - 1) cs).map fun r => (arr r.1, r.2)
    | '\x7b' :: cs =>
      if room = 0 then none
      else match skipSpace cs with
        | '\x7d' :: cs => some (obj [], cs)
        | cs => (readMembers fuel (room - 1) cs).map fun r => (obj (lastMembers r.1), r.2)
    | cs => readNumber cs

def readElements : Nat → Nat → List Char → Option (List Json × List Char)
  | 0, _, _ => none
  | fuel + 1, room, cs => do
    let (e, cs) ← readValue fuel room cs
    match skipSpace cs with
    | ',' :: cs => (readElements fuel room cs).map fun r => (e :: r.1, r.2)
    | ']' :: cs => return ([e], cs)
    | _ => none

def readMembers : Nat → Nat → List Char → Option (List (String × Json) × List Char)
  | 0, _, _ => none
  | fuel + 1, room, cs =>
    match skipSpace cs with
    | '"' :: cs => do
      let (name, cs) ← readString cs
      match skipSpace cs with
      | ':' :: cs =>
        let (v, cs) ← readValue fuel room cs
        match skipSpace cs with
        | ',' :: cs => (readMembers fuel room cs).map fun r => ((name, v) :: r.1, r.2)
        | '\x7d' :: cs => return ([(name, v)], cs)
        | _ => none
      | _ => none
    | _ => none

end

/-- The value written by a whole text. -/
def read? (text : String) : Option Json :=
  match readValue (2 * text.length + 2) maxDepth text.toList with
  | some (v, rest) => if (skipSpace rest).isEmpty then some v else none
  | none => none

end JokerRules.Json
