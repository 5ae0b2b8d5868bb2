import JokerRules.Operation
import JokerRules.Proofs.Brackets.Values
import JokerRules.Proofs.EncodedFields
import JokerRules.Proofs.HoistedCode
import JokerRules.Proofs.Numerals

/-! The expressions that the amounts of effects are, with the game's own state to read from.
Wherever an amount is put between operators it is one operand. -/

namespace JokerRules

open Expressions

theorem wordChar_of_isNameChar {c : Char} (h : isNameChar c = true) : isPathChar c = true := by
  rw [isNameChar] at h
  rw [isPathChar, h, Bool.true_or, Bool.true_or]

theorem read_injective {name other : String} (h : Slot.read name = Slot.read other) :
    name = other := by
  have htext := congrArg String.toList h
  rw [toList_read, toList_read] at htext
  exact String.toList_inj.mp (List.append_cancel_left htext)

theorem isPath_read {name : String} (h : ∀ c ∈ name.toList, isNameChar c = true) :
    amounts.IsPath (Slot.read name) := by
  have hfixed : ∀ c ∈ Statement.slotStart, isPathChar c = true :=
    List.all_eq_true.mp rfl
  have htext : (Slot.read name).toList = 'c' :: (Statement.slotStart.tail ++ name.toList) :=
    toList_read name
  refine Lexicon.isPath_of_name (fun c hc => ?_) (by simp [htext]) (by simp [htext])
    (by simp [htext, operatorWord?])
  rw [toList_read] at hc
  exact (List.mem_append.mp hc).elim (hfixed c) fun hc => wordChar_of_isNameChar (h c hc)

theorem ne_nil_of_isPath {name : String} (h : amounts.IsPath name) : name.toList ≠ [] := by
  intro hnil
  have htoken := h.2
  rw [hnil] at htoken
  exact nomatch htoken

/-- A text that gets no parentheses has to be an operand already. -/
theorem denotes_parenthesised {text : String} {x : Expr} (h : amounts.Denotes 1 text x)
    (hbare : ' ' ∉ text.toList ∨
      text.toList.head? = some '(' ∧ text.toList.getLast? = some ')' →
        amounts.Denotes operandLevel text x) :
    amounts.Denotes operandLevel (parenthesised text) x := by
  simp only [parenthesised]
  split
  · exact h.paren le_rfl
  · next hno =>
    refine hbare ?_
    simp only [Bool.and_eq_true, List.contains_iff_mem, Bool.not_eq_true', Bool.and_eq_false_iff,
      beq_eq_false_iff_ne, not_and, not_or, ne_eq, Decidable.not_not] at hno
    exact Decidable.or_iff_not_imp_left.mpr fun hblank => hno (Decidable.not_not.mp hblank)

/-- How a quantity of the game is read. -/
inductive Gauge
  | plain (path : String)
  | orZero (path : String)
  /-- The entries of a table that may be missing. -/
  | entries (path : String)
  /-- The entries of a table in a place that may be missing. -/
  | count (place path : String)
  | total (place path : String)
deriving DecidableEq

namespace Gauge

def names : Gauge → List String
  | plain path | orZero path | entries path => [path]
  | count place path | total place path => [place, path]

def text : Gauge → String
  | plain path => path
  | orZero path => "(" ++ (path ++ Operator.or.between ++ "0") ++ ")"
  | entries path => "#" ++ ("(" ++ (path ++ Operator.or.between ++ "\x7b\x7d") ++ ")")
  | count place path =>
    "#" ++ ("(" ++ (place ++ Operator.and.between ++ path ++ Operator.or.between ++ "\x7b\x7d") ++ ")")
  | total place path =>
    "(" ++ (place ++ Operator.and.between ++ path ++ Operator.or.between ++ "0") ++ ")"

def expr : Gauge → Expr
  | plain path => .path path
  | orZero path => .binary .or (.path path) (.number 0)
  | entries path => .signed .length (.binary .or (.path path) .emptyTable)
  | count place path =>
    .signed .length (.binary .or (.binary .and (.path place) (.path path)) .emptyTable)
  | total place path => .binary .or (.binary .and (.path place) (.path path)) (.number 0)

theorem denotes_zero {n : Nat} : amounts.Denotes n "0" (.number 0) :=
  .number (List.all_eq_true.mp rfl) ⟨'0', [], rfl, rfl⟩ (by decide +kernel)

theorem denotes {r : Gauge} (h : ∀ name ∈ r.names, amounts.IsPath name) :
    amounts.Denotes signLevel r.text r.expr := by
  have hpath : ∀ {n : Nat}, ∀ name ∈ r.names, amounts.Denotes n name (.path name) :=
    fun name hname => .path (h name hname)
  cases r with
  | plain path => exact hpath path (by simp [names])
  | orZero path =>
    exact (Lexicon.Denotes.binary .or le_rfl (hpath path (by simp [names])) denotes_zero).paren le_rfl
  | entries path =>
    refine .length (.paren (.binary .or le_rfl ?_ .emptyTable) le_rfl) le_rfl
    exact hpath path (by simp [names])
  | count place path =>
    refine .length (.paren (.binary .or le_rfl (.binary .and (by decide) ?_ ?_) .emptyTable)
      le_rfl) le_rfl
    · exact hpath place (by simp [names])
    · exact hpath path (by simp [names])
  | total place path =>
    refine .paren (.binary .or le_rfl (.binary .and (by decide) ?_ ?_) denotes_zero) le_rfl
    · exact hpath place (by simp [names])
    · exact hpath path (by simp [names])

theorem denotes_operand {r : Gauge} (h : ∀ name ∈ r.names, amounts.IsPath name) :
    amounts.Denotes operandLevel (parenthesised r.text) r.expr := by
  refine denotes_parenthesised ((denotes h).mono (by decide)) fun hbare => ?_
  have hpath : ∀ {n : Nat}, ∀ name ∈ r.names, amounts.Denotes n name (.path name) :=
    fun name hname => .path (h name hname)
  cases r with
  | plain path => exact hpath path (by simp [names])
  | orZero path =>
    exact (Lexicon.Denotes.binary .or le_rfl (hpath path (by simp [names])) denotes_zero).paren le_rfl
  | total place path =>
    refine .paren (.binary .or le_rfl (.binary .and (by decide) ?_ ?_) denotes_zero) le_rfl
    · exact hpath place (by simp [names])
    · exact hpath path (by simp [names])
  | entries path | count place path =>
    simp [text, Operator.between] at hbare

end Gauge

/-- The gauges that the game's own state offers. -/
def gauges : List Gauge :=
  [.plain "G.GAME.current_round.hands_left", .plain "G.GAME.current_round.discards_left",
    .orZero "G.GAME.dollars", .plain "G.GAME.round_resets.ante", .plain "G.GAME.round",
    .count "G.jokers" "G.jokers.cards", .count "G.consumeables" "G.consumeables.cards",
    .entries "G.playing_cards", .count "G.deck" "G.deck.cards", .plain "G.hand.config.card_limit",
    .count "G.hand" "G.hand.cards", .plain "G.GAME.current_round.hands_played",
    .plain "G.GAME.hands_played", .plain "G.GAME.current_round.discards_used",
    .plain "G.GAME.blind.chips", .plain "G.GAME.chips", .plain "G.jokers.config.card_limit",
    .plain "G.GAME.skips",
    .total "G.GAME.consumeable_usage_total" "G.GAME.consumeable_usage_total.tarot",
    .total "G.GAME.consumeable_usage_total" "G.GAME.consumeable_usage_total.planet",
    .entries "context.scoring_hand"]

theorem isPath_gauges : ∀ r ∈ gauges, ∀ name ∈ r.names, amounts.IsPath name := by
  have hall : ∀ r ∈ gauges, ∀ name ∈ r.names, name.toList.all isPathChar = true ∧
      name.toList ≠ [] ∧ name.toList.head?.any Char.isDigit = false ∧
      operatorWord? name.toList = none := by
    decide +kernel
  intro r hr name hname
  obtain ⟨hchars, hne, hfirst, hword⟩ := hall r hr name hname
  exact Lexicon.isPath_of_name (List.all_eq_true.mp hchars) hne hfirst hword

theorem gauge_of_builtinTable :
    ∀ row ∈ Registry.builtinTable, ∃ r ∈ gauges, row.2.1 = r.text := by
  decide +kernel

theorem gauge_of_builtin {id : String} {var : GameVariable}
    (h : Registry.builtin.get? id = some var) : ∃ r ∈ gauges, var.template = r.text := by
  obtain ⟨row, hrow, rfl⟩ := Brackets.get?_builtin h
  exact gauge_of_builtinTable row hrow

/-- A reading that is scaled and shifted as far as needed, with an expression for the offset. -/
def shiftedExpr (x : Expr) (multiplier offset : Binary64) (y : Expr) : Expr :=
  let scaled := if multiplier.equals .one then x else .binary .multiply x multiplier.literalExpr
  if offset.equals (.zero false) then scaled else .binary .add y scaled

/-- The offset is kept in a slot. -/
def affineExpr (x : Expr) (multiplier offset : Binary64) (slot : String) : Expr :=
  shiftedExpr x multiplier offset (.path slot)

section Affine

variable {template slot : String} {x : Expr} {multiplier : Binary64}

theorem denotes_scaled (hx : amounts.Denotes 1 template x) (hm : multiplier.isFinite = true) :
    amounts.Denotes Operator.multiply.level ("(" ++ template ++ ") * " ++ multiplier.literal)
      (.binary .multiply x multiplier.literalExpr) := by
  have htext : "(" ++ template ++ ") * " ++ multiplier.literal =
      ("(" ++ template ++ ")") ++ Operator.multiply.between ++ multiplier.literal := by
    apply String.toList_inj.mp
    simp [Operator.between]
  rw [htext]
  exact .binary .multiply le_rfl (hx.paren le_rfl) (Binary64.denotes_literal hm)

theorem denotes_shifted {text : String} {y : Expr} (hx : amounts.Denotes 1 template x)
    (hy : amounts.Denotes Operator.add.level text y) (hm : multiplier.isFinite = true)
    (offset : Binary64) :
    amounts.Denotes 1 (Amount.affine template multiplier offset text)
      (shiftedExpr x multiplier offset y) := by
  unfold Amount.affine shiftedExpr
  by_cases hone : multiplier.equals .one = true
  · by_cases hzero : offset.equals (.zero false) = true
    · simpa only [hone, hzero, if_true] using hx
    · simp only [hone, hzero, if_true]
      have htext : text ++ " + (" ++ template ++ ")" =
          text ++ Operator.add.between ++ ("(" ++ template ++ ")") := by
        apply String.toList_inj.mp
        simp [Operator.between]
      rw [htext]
      exact .binary .add (by decide) hy (hx.paren le_rfl)
  · by_cases hzero : offset.equals (.zero false) = true
    · simp only [hone, hzero, if_true]
      exact (denotes_scaled hx hm).mono (by decide)
    · simp only [hone, hzero]
      have htext : text ++ " + (" ++ template ++ ") * " ++ multiplier.literal =
          text ++ Operator.add.between ++ ("(" ++ template ++ ") * " ++ multiplier.literal) := by
        apply String.toList_inj.mp
        simp [Operator.between]
      rw [htext]
      exact .binary .add (by decide) hy (denotes_scaled hx hm)

theorem denotes_affine (hx : amounts.Denotes 1 template x) (hslot : amounts.IsPath slot)
    (hm : multiplier.isFinite = true) (offset : Binary64) :
    amounts.Denotes 1 (Amount.affine template multiplier offset slot)
      (affineExpr x multiplier offset slot) :=
  denotes_shifted hx (.path hslot) hm offset

theorem denotes_affine_operand (hx : amounts.Denotes 1 template x)
    (hoperand : amounts.Denotes operandLevel (parenthesised template) x) (hslot : amounts.IsPath slot)
    (hm : multiplier.isFinite = true) (offset : Binary64) :
    amounts.Denotes operandLevel (parenthesised (Amount.affine template multiplier offset slot))
      (affineExpr x multiplier offset slot) := by
  have hall := denotes_affine hx hslot hm offset
  by_cases hzero : offset.equals (.zero false) = true
  · by_cases hone : multiplier.equals .one = true
    · simpa only [Amount.affine, affineExpr, shiftedExpr, hone, hzero, if_true] using hoperand
    · refine denotes_parenthesised hall fun hbare => ?_
      simp only [Amount.affine, hone, hzero, if_true, Bool.false_eq_true, if_false] at hbare
      obtain ⟨-, hlast⟩ := hbare.resolve_left (by simp)
      have hne : multiplier.literal.toList ≠ [] := Binary64.literal_ne_nil hm
      rw [String.toList_append, List.getLast?_append_of_ne_nil _ hne] at hlast
      exact absurd (List.mem_of_getLast? hlast) (Binary64.closing_notMem_literal hm)
  · refine denotes_parenthesised hall fun hbare => ?_
    obtain ⟨rest, hrest⟩ : ∃ rest, Amount.affine template multiplier offset slot =
        slot ++ " + (" ++ rest := by
      unfold Amount.affine
      rw [if_neg hzero]
      split
      · exact ⟨template ++ ")", by simp only [String.append_assoc]⟩
      · exact ⟨template ++ ") * " ++ multiplier.literal, by simp only [String.append_assoc]⟩
    rw [hrest] at hbare
    obtain ⟨hfirst, -⟩ := hbare.resolve_left (by simp)
    obtain ⟨c, cs, hcs⟩ := List.exists_cons_of_ne_nil (ne_nil_of_isPath hslot)
    have hc : c = '(' := by simpa [hcs] using hfirst
    exact absurd (hslot.1 '(' (by simp [hcs, hc])) (by decide)

end Affine

def drawnExpr (seed low high : String) : Expr :=
  .call "pseudorandom" (.binary .comma (.binary .comma (.text seed) (.path low)) (.path high))

theorem denotes_drawn {low high : String} (hlow : amounts.IsPath low) (hhigh : amounts.IsPath high)
    (seed : String) (n : Nat) :
    amounts.Denotes n (Amount.expr (.drawn seed low high)) (drawnExpr seed low high) := by
  have hregroup : ∀ start function quoted : String, start = function ++ "(" →
      start ++ quoted ++ ", " ++ low ++ ", " ++ high ++ ")" =
        function ++ "(" ++ (quoted ++ ", " ++ low ++ ", " ++ high) ++ ")" := by
    rintro _ function quoted rfl
    simp only [String.append_assoc]
  have htext : Amount.expr (.drawn seed low high) = "pseudorandom" ++ "(" ++
      (Text.singleQuoted seed ++ ", " ++ low ++ ", " ++ high) ++ ")" :=
    hregroup _ _ _ (by decide)
  rw [htext]
  refine .call (by decide) (.binary .comma le_rfl (.binary .comma le_rfl (.quoted seed) ?_) ?_)
  · exact .path hlow
  · exact .path hhigh

theorem denotes_drawn_bounds {hint : String} (h : ∀ c ∈ hint.toList, isNameChar c = true)
    (seed : String) (n : Nat) :
    amounts.Denotes n (Amount.expr (.drawn seed (Slot.read (hint ++ "_min"))
        (Slot.read (hint ++ "_max"))))
      (drawnExpr seed (Slot.read (hint ++ "_min")) (Slot.read (hint ++ "_max"))) := by
  have hbound : ∀ suffix, (∀ c ∈ suffix.toList, isNameChar c = true) →
      amounts.IsPath (Slot.read (hint ++ suffix)) := by
    intro suffix hsuffix
    refine isPath_read fun c hc => ?_
    rw [String.toList_append] at hc
    exact (List.mem_append.mp hc).elim (h c) (hsuffix c)
  exact denotes_drawn (hbound "_min" (List.all_eq_true.mp rfl))
    (hbound "_max" (List.all_eq_true.mp rfl)) seed n

/-- The amounts that effects have, and the expressions that they are. -/
inductive Amount.Codes : Amount → Expr → Prop
  | zero : Codes .zero (.number 0)
  | stored {slot : String} (h : ∀ c ∈ slot.toList, isNameChar c = true) :
      Codes (.stored slot) (.path (Slot.read slot))
  | state {id : String} {var : GameVariable} {r : Gauge} {multiplier : Binary64}
      (offset : Binary64) (hvar : Registry.builtin.get? id = some var) (hr : r ∈ gauges)
      (htemplate : var.template = r.text) (hm : multiplier.isFinite = true) :
      Codes (.state var.template multiplier offset (Slot.read (offsetName var.label)))
        (affineExpr r.expr multiplier offset (Slot.read (offsetName var.label)))
  | drawn {hint : String} (seed : String) (h : ∀ c ∈ hint.toList, isNameChar c = true) :
      Codes (.drawn seed (Slot.read (hint ++ "_min")) (Slot.read (hint ++ "_max")))
        (drawnExpr seed (Slot.read (hint ++ "_min")) (Slot.read (hint ++ "_max")))

theorem isNameChar_offsetName {id : String} {var : GameVariable}
    (h : Registry.builtin.get? id = some var) :
    ∀ c ∈ (offsetName var.label).toList, isNameChar c = true := by
  obtain ⟨row, hrow, rfl⟩ := Brackets.get?_builtin h
  intro c hc
  have hrange := Brackets.mem_offsetName (Brackets.label_builtinTable row hrow) hc
  rw [isNameChar_iff]
  omega

theorem isFinite_fieldD (fields : List (List Char)) (i : Nat) {default : Int}
    (h : (Binary64.ofInt default).isFinite = true) :
    (Encoding.fieldD fields i default).isFinite = true := by
  unfold Encoding.fieldD
  cases hfield : fields[i]?.bind Encoding.fieldNumber? with
  | none => exact h
  | some x =>
    obtain ⟨f, -, hread⟩ := Option.bind_eq_some_iff.mp hfield
    exact Binary64.isFinite_read? hread

theorem isFinite_of_parse {raw id : String} {multiplier offset : Binary64}
    (h : Encoding.parse raw = .ok (.gameState id multiplier offset)) :
    multiplier.isFinite = true ∧ offset.isFinite = true := by
  rw [Encoding.parse_eq_ofFields] at h
  simp only [Encoding.ofFields] at h
  split at h
  · split at h
    · cases h
    · obtain ⟨-, rfl, rfl⟩ := Encoding.gameState.inj (Except.ok.inj h)
      exact ⟨isFinite_fieldD _ 1 (by decide), isFinite_fieldD _ 2 (by decide)⟩
  · cases Except.ok.inj h
  · cases h

theorem exists_codes (value : Value) (id : String) {hint : String}
    (hhint : ∀ c ∈ hint.toList, isNameChar c = true) :
    ∃ x, Amount.Codes (Resolved.ofValue value id hint .builtin {}).amount x := by
  unfold Resolved.ofValue
  split
  · next raw =>
    split
    · split
      · next var multiplier offset hparse =>
        unfold Resolved.ofGameState
        split
        · exact ⟨_, .zero⟩
        · next var hvar =>
          obtain ⟨r, hr, htemplate⟩ := gauge_of_builtin hvar
          have hcode := Amount.Codes.state offset hvar hr htemplate (isFinite_of_parse hparse).1
          split <;> exact ⟨_, hcode⟩
      · exact ⟨_, .drawn _ hhint⟩
      · exact ⟨_, .zero⟩
    · split
      · exact ⟨_, .stored hhint⟩
      · simp only [Resolved.ofReference]
        split
        · exact ⟨_, .zero⟩
        · exact ⟨_, .stored (isNameChar_identifier raw)⟩
  · exact ⟨_, .stored hhint⟩

theorem Amount.Codes.denotes {a : Amount} {x : Expr} (h : Codes a x) :
    amounts.Denotes 1 a.expr x ∧ amounts.Denotes operandLevel (parenthesised a.expr) x := by
  cases h with
  | zero => exact ⟨Gauge.denotes_zero, denotes_parenthesised Gauge.denotes_zero
      fun _ => Gauge.denotes_zero⟩
  | @stored slot h =>
    have hpath : ∀ n, amounts.Denotes n (Slot.read slot) (.path (Slot.read slot)) :=
      fun n => .path (isPath_read h)
    exact ⟨hpath 1, denotes_parenthesised (hpath 1) fun _ => hpath operandLevel⟩
  | @state id var r multiplier offset hvar hr htemplate hm =>
    have hnames := isPath_gauges r hr
    have hslot := isPath_read (isNameChar_offsetName hvar)
    rw [htemplate]
    have hx := (Gauge.denotes hnames).mono (show 1 ≤ signLevel by decide)
    exact ⟨denotes_affine hx hslot hm offset,
      denotes_affine_operand hx (Gauge.denotes_operand hnames) hslot hm offset⟩
  | @drawn hint seed h =>
    have hdrawn := denotes_drawn_bounds h seed
    exact ⟨hdrawn 1, denotes_parenthesised (hdrawn 1) fun _ => hdrawn operandLevel⟩

end JokerRules
