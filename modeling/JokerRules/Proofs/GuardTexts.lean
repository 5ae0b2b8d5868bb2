import JokerRules.Condition
import JokerRules.Proofs.Meanings
import JokerRules.Text.Blank

/-! Texts of guards. Words are atoms, which are true or false; a guard is evaluated as any other
expression. -/

namespace JokerRules

def Joiner.apply : Joiner → Bool → Bool → Bool
  | and, a, b => a && b
  | or, a, b => a || b

def Joiner.operator : Joiner → Expressions.Operator
  | and => .and
  | or => .or

namespace Guard

open Expressions

/-- Everything but blanks and parentheses belongs to words. -/
def guards : Lexicon where
  isWordChar c := !(Text.isBlank c || c == '(' || c == ')')
  operand word := .path (String.ofList word)
  blank := by decide
  opening := by decide
  closing := by decide

/-- What an expression means if its names are true or false and there are no functions. -/
def truths (truth : String → Bool) : Meaning (Option (List Datum)) :=
  .exact (fun _ _ => none) fun name => .truth (truth name)

/-- The truth value of a text, if it is an expression that has one. -/
def evaluate? (truth : String → Bool) (text : String) : Option Bool :=
  match (truths truth).value? (guards.tokens text) with
  | some (some [.truth b]) => some b
  | _ => none

example : parse? (guards.tokens "a or not b and c and d") = some (.binary .or (.path "a")
    (.binary .and (.binary .and (.signed .not (.path "b")) (.path "c")) (.path "d"))) := by
  decide

/-- The text reads as an expression of the given value, with operators in parentheses only. -/
def HasValue (truth : String → Bool) (text : String) (b : Bool) : Prop :=
  ∃ e, guards.Denotes signLevel text e ∧ e.under (truths truth) = some [.truth b]

theorem HasValue.evaluate {truth : String → Bool} {text : String} {b : Bool}
    (h : HasValue truth text b) : evaluate? truth text = some b := by
  obtain ⟨e, he, hb⟩ := h
  rw [evaluate?, he.value?, hb]

theorem divides_joiner (j : Joiner) : guards.Divides j.operator := by
  cases j with
  | and => exact Lexicon.divides_of_word "and".toList rfl (List.all_eq_true.mp (by decide)) rfl
  | or => exact Lexicon.divides_of_word "or".toList rfl (List.all_eq_true.mp (by decide)) rfl

theorem apply?_joiner (j : Joiner) (a b : Bool) :
    j.operator.apply? (some [.truth a]) (some [.truth b]) = some [.truth (j.apply a b)] := by
  cases j <;> cases a <;> rfl

/-- One step of the fold on texts. -/
def joinText (j : Joiner) (a b : String) : String :=
  "(" ++ a ++ " " ++ j.word ++ " " ++ b ++ ")"

theorem joinText_eq_paren (j : Joiner) (a b : String) :
    joinText j a b = "(" ++ (a ++ j.operator.between ++ b) ++ ")" := by
  rw [← String.toList_inj]
  cases j <;> simp [joinText, Joiner.operator, Operator.between, Joiner.word]

theorem HasValue.join {truth : String → Bool} (j : Joiner) (a b : String) (x y : Bool)
    (ha : HasValue truth a x) (hb : HasValue truth b y) :
    HasValue truth (joinText j a b) (j.apply x y) := by
  obtain ⟨e, he, hx⟩ := ha
  obtain ⟨f, hf, hy⟩ := hb
  have hlevel : j.operator.level + 1 ≤ signLevel ∧ 1 ≤ j.operator.level := by
    cases j <;> decide
  refine ⟨.binary j.operator e f, ?_, ?_⟩
  · rw [joinText_eq_paren]
    exact (Lexicon.Denotes.joined (divides_joiner j) le_rfl (he.mono (by omega))
      (hf.mono hlevel.1)).paren hlevel.2
  · rw [truths, Expr.under_binary, ← truths, hx, hy, apply?_joiner]

theorem HasValue.negation {truth : String → Bool} {a : String} {x : Bool} (h : HasValue truth a x) :
    HasValue truth ("not (" ++ a ++ ")") (!x) := by
  obtain ⟨e, he, hx⟩ := h
  refine ⟨.signed .not e, ?_, ?_⟩
  · have htext : "not (" ++ a ++ ")" = "not " ++ ("(" ++ a ++ ")") := by
      rw [← String.toList_inj]
      simp
    rw [htext]
    exact (he.paren (by decide)).negation (List.all_eq_true.mp (by decide)) le_rfl
  · rw [truths, Expr.under_signed, ← truths, hx]
    rfl

/-- A word that is no operator. -/
structure Atom where
  name : String
  nonempty : name ≠ ""
  isWord : ∀ c ∈ name.toList, guards.isWordChar c = true
  isName : name ∉ ["not", "and", "or"]

structure Literal where
  atom : Atom
  negated : Bool

namespace Literal

def expr (l : Literal) : String :=
  if l.negated then "not (" ++ l.atom.name ++ ")" else l.atom.name

def value (truth : String → Bool) (l : Literal) : Bool :=
  truth l.atom.name != l.negated

end Literal

theorem Atom.isPath (a : Atom) : guards.IsPath a.name := by
  refine ⟨a.isWord, ?_⟩
  have hne : a.name.toList ≠ [] := by simpa using a.nonempty
  have hname := a.isName
  simp only [List.mem_cons, List.not_mem_nil, or_false, not_or] at hname
  have hword : operatorWord? a.name.toList = none := by
    simp only [operatorWord?, String.toList_inj, hname, if_false]
  have hoperand : guards.operand a.name.toList = .path a.name :=
    congrArg Token.path String.ofList_toList
  rw [Lexicon.wordToken, if_neg hne, hword, Option.getD_none, hoperand]

theorem Atom.hasValue (a : Atom) (truth : String → Bool) : HasValue truth a.name (truth a.name) :=
  ⟨.path a.name, .path a.isPath, rfl⟩

theorem Literal.hasValue (l : Literal) (truth : String → Bool) :
    HasValue truth l.expr (l.value truth) := by
  have hatom := l.atom.hasValue truth
  cases hnegated : l.negated with
  | false => simpa [expr, value, hnegated] using hatom
  | true => simpa [expr, value, hnegated] using hatom.negation

end Guard

end JokerRules
