import JokerRules.Proofs.AmountCode
import JokerRules.Proofs.Captures
import JokerRules.Proofs.JsonText
import JokerRules.Proofs.Meanings

/-! Amounts in fragments. A number is written so that it denotes itself, and the tokens of an amount
are those of its fragments: code that is read and operands that stand for values. -/

namespace JokerRules

open Expressions

def intExpr (n : Int) : Expr :=
  if n < 0 then .signed .minus (.number (-n)) else .number n

theorem denotes_digits (n : Nat) {level : Nat} :
    amounts.Denotes level (String.ofList (Nat.toDigits 10 n)) (.number n) := by
  have hdigits : ∀ c ∈ Nat.toDigits 10 n, c.isDigit = true := fun _ => Binary64.isDigit_toDigits
  obtain ⟨c, cs, hcs⟩ := List.exists_cons_of_ne_nil (Nat.toDigits_ne_nil (n := n) (b := 10))
  refine .number (fun c hc => Binary64.wordChar_of_isDigit (hdigits c hc))
    ⟨c, cs, hcs, hdigits c (by simp [hcs])⟩ ?_
  rw [Binary64.numeral?_digits hdigits, digitsValue_toDigits]

theorem denotes_int (n : Int) : amounts.Denotes signLevel (toString n) (intExpr n) := by
  have htext : toString n = String.ofList (Json.minus (n < 0) ++ Nat.toDigits 10 n.natAbs) := by
    rw [← Json.toList_toString, String.ofList_toList]
  rw [htext, intExpr]
  by_cases hneg : n < 0
  · have hvalue : (n.natAbs : ℚ) = -n := by
      rw [← Int.cast_natCast, Int.ofNat_natAbs_of_nonpos hneg.le, Int.cast_neg]
    have hminus : amounts.Denotes signLevel _ (.signed .minus (.number n.natAbs)) :=
      (denotes_digits n.natAbs).minus le_rfl
    simpa [hneg, Json.minus, hvalue] using hminus
  · have hvalue : (n.natAbs : ℚ) = n := by
      rw [← Int.cast_natCast, Int.natAbs_of_nonneg (Int.not_lt.mp hneg)]
    have hdigits : amounts.Denotes signLevel _ (.number n.natAbs) := denotes_digits n.natAbs
    simpa [hneg, Json.minus, hvalue] using hdigits

theorem exists_denotes_real (x : Binary64) : ∃ e, amounts.Denotes signLevel x.literal e := by
  by_cases hfinite : x.isFinite = true
  · exact ⟨_, Binary64.denotes_literal hfinite⟩
  · have hzero : ∀ {n : Nat}, amounts.Denotes n "0" (.number 0) := Gauge.denotes_zero
    have hratio : amounts.Denotes signLevel "(0/0)" (.binary .divide (.number 0) (.number 0)) := by
      refine ⟨_, .paren (.binary (show 1 ≤ Operator.divide.level by decide) (.number _ 0)
        (.number _ 0)), fun rest _ => ?_⟩
      have hzeroToken : amounts.wordToken ['0'] = [.number 0] := by decide +kernel
      have hdigit : amounts.isWordChar '0' = true := by decide
      have hslash : amounts.isWordChar '/' = false := by decide
      simp [Lexicon.lex, hdigit, hslash, amounts.opening, amounts.closing, signToken, hzeroToken]
    have huge : ∀ {n : Nat}, amounts.Denotes n "math.huge" (.path "math.huge") := .path (by decide)
    unfold Binary64.literal
    split
    · exact ⟨_, hratio⟩
    · rw [Bool.not_eq_true] at hfinite
      rw [hfinite, Bool.not_false, if_pos rfl]
      split
      · exact ⟨_, huge.minus le_rfl⟩
      · exact ⟨_, huge⟩

theorem exists_denotes_literal {v : Value} (h : v.str? = none) :
    ∃ e, amounts.Denotes signLevel v.literal e := by
  cases v with
  | bool b => cases b <;> exact ⟨_, .path (by decide)⟩
  | int n => exact ⟨_, denotes_int n.toInt⟩
  | real x => exact exists_denotes_real x
  | str s => exact nomatch h

theorem toInt_ofNumber {x : Binary64} (h : x.wholePart < 9000000000000000) :
    (Int64.ofInt x.toInt).toInt = x.toInt := by
  refine Int64.toInt_ofInt_of_le ?_ ?_
  · unfold Binary64.toInt
    split <;> omega
  · unfold Binary64.toInt
    split <;> omega

/-- A slot keeps a number as it is written, but for the sign of zero. -/
theorem denotes_ofNumber {x : Binary64} (hfinite : x.isFinite = true) :
    ∃ e, amounts.Denotes signLevel (Value.ofNumber x).literal e ∧
      (e = x.literalExpr ∨
        x.isZero = true ∧ e = .number 0 ∧ x.literalExpr = .signed .minus (.number 0)) := by
  unfold Value.ofNumber
  split
  · next hwhole =>
    rw [Bool.and_eq_true, decide_eq_true_eq] at hwhole
    have hdecimal := Binary64.decimal_of_isWhole hwhole.1 (hwhole.2.trans (by decide))
    refine ⟨_, denotes_int _, ?_⟩
    rw [toInt_ofNumber hwhole.2, intExpr, Binary64.literalExpr, hdecimal]
    by_cases hnegative : x.negative = true
    · by_cases hsign : x.toInt < 0
      · exact .inl (by rw [if_pos hsign, if_pos hnegative])
      · have hzero : x.toInt = 0 := by
          rw [Binary64.toInt, if_pos hnegative] at hsign ⊢
          omega
        rw [hzero, Int.cast_zero] at hdecimal
        exact .inr ⟨Binary64.decimal_eq_zero_iff.mp hdecimal, by simp [hzero],
          by simp [hzero, hnegative]⟩
    · have hsign : ¬ x.toInt < 0 := by
        rw [Binary64.toInt, if_neg hnegative]
        omega
      exact .inl (by rw [if_neg hsign, if_neg hnegative])
  · exact ⟨_, Binary64.denotes_literal hfinite, .inl rfl⟩

inductive Fragment
  | code (text : String)
  /-- A text that is one operand, whatever its characters are. -/
  | operand (text : String)

namespace Fragment

def text : Fragment → String
  | code text | operand text => text

def tokens : Fragment → List Token
  | code text => amounts.tokens text
  | operand text => [.path text]

def offset (text : String) : Fragment :=
  if Statement.slotStart.isPrefixOf text.toList then operand text else code text

@[simp]
theorem text_code (text : String) : (code text).text = text :=
  rfl

@[simp]
theorem text_operand (text : String) : (operand text).text = text :=
  rfl

@[simp]
theorem text_offset (text : String) : (offset text).text = text := by
  unfold offset
  split <;> rfl

theorem offset_read (name : String) : offset (Slot.read name) = operand (Slot.read name) := by
  rw [offset, if_pos]
  rw [toList_read, List.isPrefixOf_iff_prefix]
  exact List.prefix_append _ _

theorem offset_literal {x : Binary64} (h : x.isFinite = true) : offset x.literal = code x.literal := by
  rw [offset, if_neg]
  rw [List.isPrefixOf_iff_prefix]
  rintro ⟨rest, hrest⟩
  have hfirst : x.literal.toList.head? = some 'c' := by
    rw [← hrest]
    rfl
  obtain ⟨d, ds, hds, hdigit⟩ := Binary64.exists_magnitudeDigits x
  rw [Binary64.literal_eq h, hds, String.toList_ofList] at hfirst
  by_cases hnegative : x.negative = true
  · simp [hnegative] at hfirst
  · obtain rfl : d = 'c' := by simpa [hnegative] using hfirst
    exact absurd hdigit (by decide)

theorem literal_ne_read {x : Binary64} (h : x.isFinite = true) (name : String) :
    x.literal ≠ Slot.read name := by
  intro hread
  have hfragment := offset_literal h
  rw [hread, offset_read] at hfragment
  exact nomatch hfragment

end Fragment

namespace Amount

/-- The text of an amount, with the slots and the readings of the game as operands. -/
def fragments : Amount → List Fragment
  | zero => [.code "0"]
  | stored slot => [.operand (Slot.read slot)]
  | captured name => [.operand name]
  | constant v => [.code v.literal]
  | state template multiplier offset offsetExpr =>
    if offset.equals (.zero false) then
      if multiplier.equals .one then [.operand template]
      else [.code "(", .operand template, .code (") * " ++ multiplier.literal)]
    else if multiplier.equals .one then
      [.offset offsetExpr, .code " + (", .operand template, .code ")"]
    else
      [.offset offsetExpr, .code " + (", .operand template, .code (") * " ++ multiplier.literal)]
  | drawn seed low high =>
    [.code ("pseudorandom(" ++ Text.singleQuoted seed ++ ", "), .offset low, .code ", ", .offset high,
      .code ")"]

theorem join_fragments (a : Amount) : String.join (a.fragments.map Fragment.text) = a.expr := by
  have hone : ∀ text : String, String.join [text] = text := fun text => by simp [String.join]
  cases a with
  | zero | stored | captured | constant => exact hone _
  | drawn seed low high =>
    show _ = "pseudorandom(" ++ Text.singleQuoted seed ++ ", " ++ low ++ ", " ++ high ++ ")"
    apply String.toList_inj.mp
    simp [fragments, String.join]
  | state template multiplier offset offsetExpr =>
    show _ = affine template multiplier offset offsetExpr
    apply String.toList_inj.mp
    rw [fragments, affine]
    split
    · split <;> simp [String.join]
    · split <;> simp [String.join]

/-- What an amount is worth, its slots and its readings of the game being worth what their texts
are. -/
def value? {D : Type} (M : Meaning D) (a : Amount) : Option D :=
  M.value? (a.fragments.flatMap Fragment.tokens)

/-- The expression that an amount is, with an expression for each reading of the game. -/
inductive Stands (x : String → Expr) : Amount → Expr → Prop
  | zero : Stands x zero (.number 0)
  | stored (slot : String) : Stands x (stored slot) (.path (Slot.read slot))
  | constant {v : Value} {e : Expr} (h : amounts.Denotes signLevel v.literal e) : Stands x (constant v) e
  | slotOffset (template name : String) {multiplier : Binary64} (offset : Binary64)
      (hm : multiplier.isFinite = true) :
      Stands x (state template multiplier offset (Slot.read name))
        (shiftedExpr (x template) multiplier offset (.path (Slot.read name)))
  | literalOffset (template : String) {multiplier offset : Binary64}
      (hm : multiplier.isFinite = true) (ho : offset.isFinite = true) :
      Stands x (state template multiplier offset offset.literal)
        (shiftedExpr (x template) multiplier offset offset.literalExpr)

theorem reads_tokens {n : Nat} {text : String} {e : Expr} (h : amounts.Denotes n text e) :
    Reads n (amounts.tokens text) e := by
  obtain ⟨ts, hr, hl⟩ := h
  rwa [Lexicon.Denotes.tokens hl]

theorem reads_fragments (template : String) {multiplier : Binary64} (hm : multiplier.isFinite = true)
    (offset : Binary64) {text : String} {y : Expr}
    (hy : Reads Operator.add.level (Fragment.offset text).tokens y) :
    Reads 1 ((state template multiplier offset text).fragments.flatMap Fragment.tokens)
      (shiftedExpr (.path template) multiplier offset y) := by
  have hliteral := reads_tokens (Binary64.denotes_literal hm)
  have hparen : ∀ n, Reads n [.opening, .path template, .closing] (.path template) :=
    fun _ => .paren (.path 1 template)
  have htimes : amounts.tokens (") * " ++ multiplier.literal) =
      .closing :: .operator .multiply :: amounts.tokens multiplier.literal := by
    have htext : (") * " ++ multiplier.literal).toList =
        ')' :: (Operator.multiply.between.toList ++ multiplier.literal.toList) := by
      simp [Operator.between]
    rw [Lexicon.tokens, htext, Lexicon.lex_closing, Lexicon.lex_operator, Lexicon.tokens]
  have hscaled : Reads Operator.multiply.level ([.opening, .path template, .closing] ++
      .operator .multiply ::
      amounts.tokens multiplier.literal) (.binary .multiply (.path template) multiplier.literalExpr) :=
    Reads.binary (Nat.le_refl Operator.multiply.level) (hparen _) hliteral
  have hopen : amounts.tokens "(" = [.opening] := by decide +kernel
  have hclose : amounts.tokens ")" = [.closing] := by decide +kernel
  have hplus : amounts.tokens " + (" = [.operator .add, .opening] := by decide +kernel
  rw [fragments, shiftedExpr]
  split
  · split
    · exact .path 1 template
    · simpa [Fragment.tokens, hopen, htimes] using
        hscaled.mono (show 1 ≤ Operator.multiply.level by decide)
  · split
    · simpa [Fragment.tokens, hplus, hclose] using
        Reads.binary (show 1 ≤ Operator.add.level by decide) hy (hparen _)
    · simpa [Fragment.tokens, hplus, htimes] using
        Reads.binary (show 1 ≤ Operator.add.level by decide) hy hscaled

theorem Stands.value? {D : Type} {a : Amount} {e : Expr} (h : Stands .path a e) (M : Meaning D) :
    a.value? M = some (e.under M) := by
  have hreads : ∃ n, Reads n (a.fragments.flatMap Fragment.tokens) e := by
    cases h with
    | zero => exact ⟨1, by simpa [fragments, Fragment.tokens] using reads_tokens Gauge.denotes_zero⟩
    | stored slot => exact ⟨1, .path 1 _⟩
    | constant h => exact ⟨_, by simpa [fragments, Fragment.tokens] using reads_tokens h⟩
    | slotOffset template name offset hm =>
      refine ⟨1, reads_fragments template hm offset ?_⟩
      rw [Fragment.offset_read]
      exact .path _ _
    | literalOffset template hm ho =>
      refine ⟨1, reads_fragments template hm _ ?_⟩
      rw [Fragment.offset_literal ho]
      exact (reads_tokens (Binary64.denotes_literal ho)).mono (by decide)
  obtain ⟨n, hn⟩ := hreads
  exact hn.value? M

/-- The amount's text can be read as it is: its slots are names and its readings are expressions. -/
def Legible (x : String → Expr) : Amount → Prop
  | stored slot => ∀ c ∈ slot.toList, isNameChar c = true
  | state template _ _ offsetExpr =>
    amounts.Denotes 1 template (x template) ∧
      (Fragment.offset offsetExpr = .operand offsetExpr → amounts.IsPath offsetExpr)
  | _ => True

theorem Stands.denotes {x : String → Expr} {a : Amount} {e : Expr} (h : Stands x a e)
    (hlegible : a.Legible x) : amounts.Denotes 1 a.expr e := by
  cases h with
  | zero => exact Gauge.denotes_zero
  | stored slot => exact .path (isPath_read hlegible)
  | constant h => exact h.mono (by decide)
  | slotOffset template name offset hm =>
    exact denotes_shifted hlegible.1 (.path (hlegible.2 (Fragment.offset_read name))) hm offset
  | literalOffset template hm ho =>
    exact denotes_shifted hlegible.1 ((Binary64.denotes_literal ho).mono (by decide)) hm _

end Amount

end JokerRules
