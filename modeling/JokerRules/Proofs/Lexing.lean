import JokerRules.Proofs.Precedence
import JokerRules.Text.Quoted

/-! Texts that stand for expressions. A lexicon says which characters belong to words, and what a
word stands for unless it is an operator. -/

namespace JokerRules.Expressions

/-- An operator as it stands between its operands. -/
def Operator.between : Operator → String
  | comma => ", "
  | or => " or "
  | and => " and "
  | add => " + "
  | subtract => " - "
  | multiply => " * "
  | divide => " / "

/-- The token of a single character that is followed by others. Two dashes start a comment, which
is no part of an expression. -/
def signToken (c : Char) (rest : List Char) : List Token :=
  match c with
  | ' ' => []
  | '\n' => [.lineEnd]
  | ',' => [.operator .comma]
  | '+' => [.operator .add]
  | '-' => if rest.head? = some '-' then [.stray] else [.operator .subtract]
  | '*' => [.operator .multiply]
  | '/' => [.operator .divide]
  | '#' => [.length]
  | '(' => [.opening]
  | ')' => [.closing]
  | '\x7b' => [.openingBrace]
  | '\x7d' => [.closingBrace]
  | '=' => [.equals]
  | _ => [.stray]

/-- Where the lexer is: after the characters of a word, inside a string, or after a backslash in
one. -/
inductive Mode
  | word (cs : List Char)
  | quoted (cs : List Char)
  | escaped (cs : List Char)

/-- The character that an escape stands for. -/
def unescape (c : Char) : Char :=
  if c = 'n' then '\n' else if c = 'r' then '\r' else if c = 't' then '\t' else c

def operatorWord? (word : List Char) : Option Token :=
  if word = "not".toList then some .negation
  else if word = "and".toList then some (.operator .and)
  else if word = "or".toList then some (.operator .or)
  else none

structure Lexicon where
  isWordChar : Char → Bool
  /-- What a word is that is no operator. -/
  operand : List Char → Token
  blank : isWordChar ' ' = false
  opening : isWordChar '(' = false
  closing : isWordChar ')' = false

namespace Lexicon

variable (L : Lexicon)

/-- The token of a run of word characters, if there is one. -/
def wordToken (word : List Char) : List Token :=
  if word = [] then [] else [(operatorWord? word).getD (L.operand word)]

def lex : Mode → List Char → List Token
  | .word w, [] => L.wordToken w
  | .quoted _, [] => [.stray]
  | .escaped _, [] => [.stray]
  | .word w, c :: cs =>
    if L.isWordChar c then lex (.word (w ++ [c])) cs
    else if c = '\'' then L.wordToken w ++ lex (.quoted []) cs
    else L.wordToken w ++ signToken c cs ++ lex (.word []) cs
  | .quoted s, c :: cs =>
    if c = '\\' then lex (.escaped s) cs
    else if c = '\'' then .text (String.ofList s) :: lex (.word []) cs
    else lex (.quoted (s ++ [c])) cs
  | .escaped s, c :: cs => lex (.quoted (s ++ [unescape c])) cs

def tokens (text : String) : List Token :=
  L.lex (.word []) text.toList

/-- No word goes on into the text. -/
def Delimited (cs : List Char) : Prop :=
  ∀ c ∈ cs.head?, L.isWordChar c = false

variable {L}

@[simp]
theorem wordToken_nil : L.wordToken [] = [] :=
  rfl

theorem delimited_nil : L.Delimited [] := by
  simp [Delimited]

theorem delimited_cons {c : Char} (h : L.isWordChar c = false) (cs : List Char) :
    L.Delimited (c :: cs) := by
  simpa [Delimited] using h

theorem lex_flush (word : List Char) {rest : List Char} (h : L.Delimited rest) :
    L.lex (.word word) rest = L.wordToken word ++ L.lex (.word []) rest := by
  cases rest with
  | nil => simp [lex]
  | cons c cs =>
    have hc : L.isWordChar c = false := h c rfl
    simp only [lex, hc, Bool.false_eq_true, if_false, wordToken_nil, List.nil_append]
    split
    · rfl
    · rw [List.append_assoc]

theorem lex_word {cs : List Char} (hcs : ∀ c ∈ cs, L.isWordChar c = true) (word : List Char)
    {rest : List Char} (h : L.Delimited rest) :
    L.lex (.word word) (cs ++ rest) = L.wordToken (word ++ cs) ++ L.lex (.word []) rest := by
  induction cs generalizing word with
  | nil => simpa using lex_flush word h
  | cons c cs ih =>
    have hc := hcs c (by simp)
    simpa [lex, hc] using ih (fun d hd => hcs d (by simp [hd])) (word ++ [c])

theorem lex_sign {c : Char} (hc : L.isWordChar c = false) (hquote : c ≠ '\'') (cs : List Char) :
    L.lex (.word []) (c :: cs) = signToken c cs ++ L.lex (.word []) cs := by
  simp [lex, hc, hquote]

theorem lex_blank (cs : List Char) : L.lex (.word []) (' ' :: cs) = L.lex (.word []) cs :=
  lex_sign L.blank (by decide) cs

theorem lex_opening (cs : List Char) :
    L.lex (.word []) ('(' :: cs) = .opening :: L.lex (.word []) cs :=
  lex_sign L.opening (by decide) cs

theorem lex_closing (cs : List Char) :
    L.lex (.word []) (')' :: cs) = .closing :: L.lex (.word []) cs :=
  lex_sign L.closing (by decide) cs

variable (L)

/-- A name that is no word of the language. -/
def IsPath (name : String) : Prop :=
  (∀ c ∈ name.toList, L.isWordChar c = true) ∧ L.wordToken name.toList = [.path name]

instance (name : String) : Decidable (L.IsPath name) :=
  decidable_of_iff (name.toList.all L.isWordChar = true ∧ L.wordToken name.toList = [.path name])
    (by rw [IsPath, List.all_eq_true])

/-- The operator divides its operands wherever it stands. -/
def Divides (op : Operator) : Prop :=
  ∀ cs, L.Delimited (op.between.toList ++ cs) ∧
    L.lex (.word []) (op.between.toList ++ cs) = .operator op :: L.lex (.word []) cs

variable {L}

theorem divides_of_word {op : Operator} (word : List Char)
    (hbetween : op.between.toList = ' ' :: (word ++ [' ']))
    (hword : ∀ c ∈ word, L.isWordChar c = true) (hop : L.wordToken word = [.operator op]) :
    L.Divides op := by
  intro cs
  rw [hbetween]
  refine ⟨delimited_cons L.blank _, ?_⟩
  rw [List.cons_append, List.append_assoc, List.singleton_append, lex_blank,
    lex_word hword [] (delimited_cons L.blank _), List.nil_append, hop, lex_blank]
  rfl

theorem divides_of_sign {op : Operator} (c : Char) (hbetween : op.between.toList = [' ', c, ' '])
    (hc : L.isWordChar c = false) (hquote : c ≠ '\'')
    (hop : ∀ cs, signToken c (' ' :: cs) = [.operator op]) : L.Divides op := by
  intro cs
  rw [hbetween]
  refine ⟨delimited_cons L.blank _, ?_⟩
  rw [List.cons_append, List.cons_append, List.singleton_append, lex_blank, lex_sign hc hquote, hop,
    lex_blank]
  rfl

variable (L)

/-- `Denotes n text e`: the text is the expression, with operators of level `n` or more outside
parentheses, wherever no word goes on after it. -/
def Denotes (n : Nat) (text : String) (e : Expr) : Prop :=
  ∃ ts, Reads n ts e ∧
    ∀ rest, L.Delimited rest → L.lex (.word []) (text.toList ++ rest) = ts ++ L.lex (.word []) rest

variable {L}

namespace Denotes

variable {m n : Nat} {a b : String} {x y : Expr}

theorem mono (h : L.Denotes n a x) (hm : m ≤ n) : L.Denotes m a x := by
  obtain ⟨ts, hr, hl⟩ := h
  exact ⟨ts, hr.mono hm, hl⟩

theorem path {name : String} (h : L.IsPath name) : L.Denotes n name (.path name) := by
  refine ⟨[.path name], .path n name, fun rest hrest => ?_⟩
  rw [lex_word h.1 [] hrest, List.nil_append, h.2]

theorem paren (h : L.Denotes m a x) (hm : 1 ≤ m) : L.Denotes n ("(" ++ a ++ ")") x := by
  obtain ⟨ts, hr, hl⟩ := h
  refine ⟨_, .paren (hr.mono hm), fun rest _ => ?_⟩
  have htext : ("(" ++ a ++ ")").toList ++ rest = '(' :: (a.toList ++ ')' :: rest) := by simp
  rw [htext, lex_opening, hl _ (delimited_cons L.closing rest), lex_closing]
  simp

theorem call {function : String} (hname : L.IsPath function) (h : L.Denotes m a x) :
    L.Denotes n (function ++ "(" ++ a ++ ")") (.call function x) := by
  obtain ⟨ts, hr, hl⟩ := h
  refine ⟨_, .call function (hr.mono (Nat.zero_le m)), fun rest _ => ?_⟩
  have htext : (function ++ "(" ++ a ++ ")").toList ++ rest =
      function.toList ++ '(' :: (a.toList ++ ')' :: rest) := by simp
  rw [htext, lex_word hname.1 [] (delimited_cons L.opening _), List.nil_append, hname.2,
    lex_opening, hl _ (delimited_cons L.closing rest), lex_closing]
  simp

theorem joined {op : Operator} (hop : L.Divides op) (hn : n ≤ op.level)
    (ha : L.Denotes op.level a x) (hb : L.Denotes (op.level + 1) b y) :
    L.Denotes n (a ++ op.between ++ b) (.binary op x y) := by
  obtain ⟨ts, hra, hla⟩ := ha
  obtain ⟨us, hrb, hlb⟩ := hb
  refine ⟨_, .binary hn hra hrb, fun rest hrest => ?_⟩
  have htext : (a ++ op.between ++ b).toList ++ rest =
      a.toList ++ (op.between.toList ++ (b.toList ++ rest)) := by simp
  rw [htext, hla _ (hop _).1, (hop _).2, hlb _ hrest]
  simp

theorem negation (hnot : ∀ c ∈ "not".toList, L.isWordChar c = true)
    (h : L.Denotes signLevel a x) (hn : n ≤ signLevel) :
    L.Denotes n ("not " ++ a) (.signed .not x) := by
  obtain ⟨ts, hr, hl⟩ := h
  refine ⟨_, .signed .not hn hr, fun rest hrest => ?_⟩
  have htext : ("not " ++ a).toList ++ rest = "not".toList ++ ' ' :: (a.toList ++ rest) := by simp
  have hword : L.wordToken "not".toList = [.negation] := rfl
  rw [htext, lex_word hnot [] (delimited_cons L.blank _), List.nil_append, hword, lex_blank,
    hl rest hrest]
  rfl

theorem tokens {ts : List Token} (h : ∀ rest, L.Delimited rest →
    L.lex (.word []) (a.toList ++ rest) = ts ++ L.lex (.word []) rest) : L.tokens a = ts := by
  simpa [Lexicon.tokens, lex] using h [] delimited_nil

/-- The reader finds the expression in the text, so there is only one. -/
theorem parse (h : L.Denotes n a x) : parse? (L.tokens a) = some x := by
  obtain ⟨ts, hr, hl⟩ := h
  rw [tokens hl, hr.parse]

theorem lex_quoted (s cs rest : List Char) :
    L.lex (.quoted s) (cs.flatMap (Text.escapeChar '\'') ++ '\'' :: rest) =
      .text (String.ofList (s ++ cs)) :: L.lex (.word []) rest := by
  induction cs generalizing s with
  | nil => simp [lex]
  | cons c cs ih =>
    have hnext := ih (s ++ [c])
    rw [List.append_assoc, List.singleton_append] at hnext
    rw [List.flatMap_cons, List.append_assoc, ← hnext]
    unfold Text.escapeChar
    split
    · next h => subst h; rfl
    split
    · next h => subst h; rfl
    split
    · next h => subst h; rfl
    split
    · next h => subst h; rfl
    split
    · next h => subst h; rfl
    · next hslash _ _ _ hquote => simp [lex, hslash, hquote]

theorem enquoted (hquote : L.isWordChar '\'' = false) (s : String) :
    L.Denotes n (Text.singleQuoted s) (.text s) := by
  refine ⟨[.text s], .text n s, fun rest _ => ?_⟩
  have htext : (Text.singleQuoted s).toList ++ rest =
      '\'' :: (s.toList.flatMap (Text.escapeChar '\'') ++ '\'' :: rest) := by
    simp [Text.singleQuoted, Text.quoteWith]
  have hopen : ∀ cs, L.lex (.word []) ('\'' :: cs) = L.lex (.quoted []) cs := by
    simp [lex, hquote]
  rw [htext, hopen, lex_quoted, List.nil_append, String.ofList_toList]
  rfl

end Denotes

end Lexicon

end JokerRules.Expressions
