import JokerRules.Text.Blank

/-!
Parsers made from smaller ones. A parser reads from the front of a text. If it fails, another one can
be tried in its place, unless the failure is final.
-/

namespace JokerRules.Text

inductive Reply (α : Type)
  | done (a : α) (rest : List Char)
  /-- `rest` begins where the parser stopped; `expected` names what would have gone on, the
  innermost name first. -/
  | failed (isFinal : Bool) (rest : List Char) (expected : List String)

def Parser (α : Type) : Type :=
  List Char → Reply α

namespace Parser

variable {α : Type}

instance : Monad Parser where
  pure a := fun cs => .done a cs
  bind p next := fun cs =>
    match p cs with
    | .done a rest => next a rest
    | .failed isFinal rest expected => .failed isFinal rest expected

/-- A fixed text. -/
def fixed (text : String) : Parser Unit := fun cs =>
  if text.toList.isPrefixOf cs then .done () (cs.drop text.length) else .failed false cs []

/-- Everything up to a character that stops it, `least` characters at least. -/
def takeTill (stop : Char → Bool) (least : Nat) : Parser (List Char) := fun cs =>
  let taken := cs.takeWhile fun c => !stop c
  if taken.length < least then .failed false cs []
  else .done taken (cs.dropWhile fun c => !stop c)

/-- A result that has to pass a test. -/
def check (test : α → Bool) (p : Parser α) : Parser α := fun cs =>
  match p cs with
  | .done a rest => if test a then .done a rest else .failed false cs []
  | failure => failure

/-- A parser that may find nothing. -/
def optional (p : Parser α) : Parser (Option α) := fun cs =>
  match p cs with
  | .done a rest => .done (some a) rest
  | .failed false _ _ => .done none cs
  | .failed true rest expected => .failed true rest expected

/-- The second parser where the first one fails. -/
def orElse (p q : Parser α) : Parser α := fun cs =>
  match p cs with
  | .failed false _ _ => q cs
  | reply => reply

/-- Makes failures final. -/
def commit (p : Parser α) : Parser α := fun cs =>
  match p cs with
  | .failed _ rest expected => .failed true rest expected
  | reply => reply

/-- Names what a failing parser would have found. -/
def expecting (what : String) (p : Parser α) : Parser α := fun cs =>
  match p cs with
  | .failed isFinal rest expected => .failed isFinal rest (expected ++ [what])
  | reply => reply

def skipRest : Parser Unit := fun _ =>
  .done () []

/-- A parser after which nothing is left. -/
def whole (p : Parser α) : Parser α := fun cs =>
  match p cs with
  | .done a [] => .done a []
  | .done _ rest => .failed false rest []
  | failure => failure

end Parser

end JokerRules.Text
