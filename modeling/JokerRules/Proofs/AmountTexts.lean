import JokerRules.Number.Decimal
import JokerRules.Proofs.Lexing

/-! Texts of amounts. Words are names with everything that is selected from them, or numerals. -/

namespace JokerRules.Expressions

def isPathChar (c : Char) : Bool :=
  c.isAlphanum || c == '_' || c == '.' || c == ':'

/-- The value of digits with a point among them. -/
def numeral? (word : List Char) : Option ℚ :=
  match word.dropWhile Char.isDigit with
  | [] => some (digitsValue word)
  | '.' :: fraction =>
    if fraction.all Char.isDigit then
      some (digitsValue (word.takeWhile Char.isDigit) +
        digitsValue fraction / 10 ^ fraction.length)
    else none
  | _ => none

/-- A word that starts with a digit is a numeral. -/
def pathOrNumeral (word : List Char) : Token :=
  if word.head?.any Char.isDigit then (numeral? word).elim .stray .number
  else .path (String.ofList word)

def amounts : Lexicon where
  isWordChar := isPathChar
  operand := pathOrNumeral
  blank := by decide
  opening := by decide
  closing := by decide

example : parse? (amounts.tokens "a + (b) * -0.5 - #c") = some (.binary .subtract
    (.binary .add (.path "a") (.binary .multiply (.path "b") (.signed .minus (.number (1 / 2)))))
    (.signed .length (.path "c"))) := by
  decide +kernel

namespace Lexicon

theorem isPath_of_name {name : String} (hchars : ∀ c ∈ name.toList, isPathChar c = true)
    (hne : name.toList ≠ []) (hfirst : name.toList.head?.any Char.isDigit = false)
    (hword : operatorWord? name.toList = none) : amounts.IsPath name := by
  refine ⟨hchars, ?_⟩
  have hoperand : amounts.operand name.toList = .path name := by
    change pathOrNumeral name.toList = _
    rw [pathOrNumeral, hfirst, if_neg Bool.false_ne_true, String.ofList_toList]
  rw [wordToken, if_neg hne, hword, Option.getD_none, hoperand]

theorem divides (op : Operator) : amounts.Divides op := by
  cases op with
  | comma =>
    intro cs
    have hcomma : amounts.isWordChar ',' = false := by decide
    refine ⟨delimited_cons hcomma _, ?_⟩
    change amounts.lex (.word []) (',' :: ' ' :: cs) = _
    rw [lex_sign hcomma (by decide), lex_blank]
    rfl
  | or => exact divides_of_word "or".toList rfl (List.all_eq_true.mp rfl) rfl
  | and => exact divides_of_word "and".toList rfl (List.all_eq_true.mp rfl) rfl
  | add => exact divides_of_sign '+' rfl (by decide) (by decide) fun _ => rfl
  | subtract => exact divides_of_sign '-' rfl (by decide) (by decide) fun _ => rfl
  | multiply => exact divides_of_sign '*' rfl (by decide) (by decide) fun _ => rfl
  | divide => exact divides_of_sign '/' rfl (by decide) (by decide) fun _ => rfl

theorem lex_operator (op : Operator) (cs : List Char) :
    amounts.lex (.word []) (op.between.toList ++ cs) = .operator op :: amounts.lex (.word []) cs :=
  (divides op cs).2

namespace Denotes

variable {m n : Nat} {a b : String} {x y : Expr}

theorem number {word : List Char} {q : ℚ} (hword : ∀ c ∈ word, isPathChar c = true)
    (hstart : ∃ c cs, word = c :: cs ∧ c.isDigit = true) (hq : numeral? word = some q) :
    amounts.Denotes n (String.ofList word) (.number q) := by
  refine ⟨[.number q], .number n q, fun rest hrest => ?_⟩
  rw [String.toList_ofList, lex_word hword [] hrest, List.nil_append]
  obtain ⟨c, cs, rfl, hdigit⟩ := hstart
  have hletter : ∀ letter ∈ ['n', 'a', 'o'], c ≠ letter := by
    rintro letter hmem rfl
    simp only [List.mem_cons, List.not_mem_nil, or_false] at hmem
    rcases hmem with rfl | rfl | rfl <;> cases hdigit
  have hoperator : operatorWord? (c :: cs) = none := by
    simp [operatorWord?, hletter]
  have hoperand : amounts.operand (c :: cs) = .number q := by
    change pathOrNumeral (c :: cs) = _
    simp [pathOrNumeral, hdigit, hq]
  rw [wordToken, if_neg (List.cons_ne_nil c cs), hoperator, Option.getD_none, hoperand]

theorem emptyTable : amounts.Denotes n "\x7b\x7d" .emptyTable := by
  refine ⟨_, .emptyTable n, fun rest _ => ?_⟩
  have htext : "\x7b\x7d".toList ++ rest = '\x7b' :: '\x7d' :: rest := rfl
  rw [htext, lex_sign (by decide) (by decide), lex_sign (by decide) (by decide)]
  rfl

theorem binary (op : Operator) (hn : n ≤ op.level) (ha : amounts.Denotes op.level a x)
    (hb : amounts.Denotes (op.level + 1) b y) :
    amounts.Denotes n (a ++ op.between ++ b) (.binary op x y) :=
  joined (divides op) hn ha hb

theorem length (h : amounts.Denotes signLevel a x) (hn : n ≤ signLevel) :
    amounts.Denotes n ("#" ++ a) (.signed .length x) := by
  obtain ⟨ts, hr, hl⟩ := h
  refine ⟨_, .signed .length hn hr, fun rest hrest => ?_⟩
  have htext : ("#" ++ a).toList ++ rest = '#' :: (a.toList ++ rest) := by simp
  rw [htext, lex_sign (by decide) (by decide), hl _ hrest]
  rfl

/-- An operand does not start with a dash, so a sign in front makes no comment of it. -/
theorem head_ne_dash (h : amounts.Denotes operandLevel a x) (rest : List Char) :
    (a.toList ++ rest).head? ≠ some '-' := by
  obtain ⟨ts, hr, hl⟩ := h
  have hfirst : ts.head? ≠ none ∧ ts.head? ≠ some (.operator .subtract) ∧ ts.head? ≠ some .stray := by
    cases hr with
    | number | path | text | emptyTable | paren | call => simp
    | signed _ hn => exact absurd hn (by decide)
    | @binary _ op _ _ _ _ hn => cases op <;> exact absurd hn (by decide)
  have htokens : amounts.lex (.word []) a.toList = ts := Denotes.tokens hl
  cases hcs : a.toList with
  | nil =>
    rw [hcs] at htokens
    rw [← htokens] at hfirst
    exact absurd rfl hfirst.1
  | cons c cs =>
    intro hdash
    obtain rfl : c = '-' := by simpa using hdash
    rw [hcs, lex_sign (by decide) (by decide)] at htokens
    rw [← htokens] at hfirst
    simp only [signToken] at hfirst
    split at hfirst
    · exact absurd rfl hfirst.2.2
    · exact absurd rfl hfirst.2.1

theorem minus (h : amounts.Denotes operandLevel a x) (hn : n ≤ signLevel) :
    amounts.Denotes n ("-" ++ a) (.signed .minus x) := by
  have hhead := h.head_ne_dash
  obtain ⟨ts, hr, hl⟩ := h
  refine ⟨_, .signed .minus hn (hr.mono (by decide)), fun rest hrest => ?_⟩
  have htext : ("-" ++ a).toList ++ rest = '-' :: (a.toList ++ rest) := by simp
  rw [htext, lex_sign (by decide) (by decide), hl _ hrest]
  simp only [signToken, hhead rest, if_false]
  rfl

theorem quoted (s : String) : amounts.Denotes n (Text.singleQuoted s) (.text s) :=
  enquoted (by decide) s

end Denotes

end Lexicon

end JokerRules.Expressions
