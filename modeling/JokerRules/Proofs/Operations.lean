import JokerRules.Proofs.AmountValues
import JokerRules.Proofs.LegalNames
import JokerRules.Proofs.Operands

/-! Operations on quantities. Assigned to a target or added to it as a change, an operation gives
the same number: that of the target and the whole amount, however the amount is written. -/

namespace JokerRules

open Expressions

theorem isPath_of_legal {name : String} (h : SlotNames.Legal name) : amounts.IsPath name := by
  have hne : name.toList ≠ [] := fun hnil => h.nonempty (String.toList_eq_nil_iff.mp hnil)
  have hfirst : name.toList.head?.any Char.isDigit = false := by
    rw [Option.any_eq_false]
    exact fun c hc => by simp [h.first c hc]
  have hword : ∀ word ∈ SlotNames.reservedWords, name.toList ≠ word.toList :=
    fun word hword heq => h.unreserved (String.toList_inj.mp heq ▸ hword)
  refine Lexicon.isPath_of_name (fun c hc => wordChar_of_isNameChar (h.chars c hc)) hne hfirst ?_
  simp only [operatorWord?, hword "not" (by decide), hword "and" (by decide), hword "or" (by decide),
    if_false]

theorem isPath_localOf {effects : List Effect} {name : String} (h : name ∈ Capture.conflicts effects) :
    amounts.IsPath (Capture.localOf name) := by
  obtain ⟨-, e, -, htarget⟩ := Capture.mem_conflicts.mp h
  refine isPath_of_legal ((SlotNames.spelled_target htarget).legal_append
    (List.all_eq_true.mp (by decide)) (by decide : '_' ∈ "_value".toList) (.inl rfl))

theorem localOf_notMem_tableNames (name : String) : Capture.localOf name ∉ tableNames := by
  have hsuffix : ∀ table ∈ tableNames, ¬ "_value".toList <:+ table.toList := by decide +kernel
  exact fun hmem => hsuffix _ hmem (value_localOf name)

/-- Captures make a difference for names of captured variables only. -/
theorem ofValue_captures (value : Value) (id hint : String) (registry : Registry)
    (effects : List Effect) :
    (Resolved.ofValue value id hint registry (Capture.captures effects)).amount =
        (Resolved.ofValue value id hint registry {}).amount ∨
      ∃ name ∈ Capture.conflicts effects,
        (Resolved.ofValue value id hint registry (Capture.captures effects)).amount =
          .captured (Capture.localOf name) := by
  unfold Resolved.ofValue
  split
  · next raw =>
    split
    · exact .inl rfl
    · split
      · exact .inl rfl
      · -- Only a reference looks its name up among the captures.
        simp only [Resolved.ofReference]
        split
        · exact .inl rfl
        · rw [Capture.get?_captures]
          by_cases hmem : Text.identifier raw ∈ Capture.conflicts effects
          · exact .inr ⟨_, hmem, by rw [if_pos hmem]⟩
          · exact .inl (by rw [if_neg hmem]; rfl)
  · exact .inl rfl

/-- The expression that an amount is, also as an operand, with a number in every regular game. -/
structure Amount.Stated (a : Amount) (x : Expr) : Prop where
  whole : amounts.Denotes 1 a.expr x
  operand : amounts.Denotes operandLevel (parenthesised a.expr) x
  number : ∀ chance g, Regular g → ∃ q, x.eval chance g = some [.number q]

theorem exists_stated (value : Value) (id : String) {hint : String}
    (hhint : ∀ c ∈ hint.toList, isNameChar c = true) (effects : List Effect) :
    ∃ x, (Resolved.ofValue value id hint .builtin (Capture.captures effects)).amount.Stated x := by
  rcases ofValue_captures value id hint .builtin effects with hsame | ⟨name, hname, hcaptured⟩
  · obtain ⟨x, hcode⟩ := exists_codes value id hhint
    rw [hsame]
    exact ⟨x, hcode.denotes.1, hcode.denotes.2, fun chance g hg => hcode.exists_eval hg chance⟩
  · have hpath : ∀ n, amounts.Denotes n (Capture.localOf name) (.path (Capture.localOf name)) :=
      fun n => .path (isPath_localOf hname)
    rw [hcaptured]
    refine ⟨_, hpath 1, denotes_parenthesised (hpath 1) fun _ => hpath operandLevel, ?_⟩
    intro chance g hg
    obtain ⟨q, hq⟩ := hg.number _ (localOf_notMem_tableNames name)
    exact ⟨q, by rw [Expr.eval, hq]⟩

/-- The tokens are an expression that is worth the number. -/
def Yields (chance : Chance) (g : Game) (ts : List Token) (q : ℚ) : Prop :=
  ∃ e, parse? ts = some e ∧ e.eval chance g = some [.number q]

/-- The tokens are a statement that stores the number in the target and does nothing else. -/
def Stores (chance : Chance) (g : Game) (target : String) (ts : List Token) (q : ℚ) : Prop :=
  ∃ c, command? ts = some c ∧ c.run chance g = some (Function.update g target (.number q))

theorem yields_iff {n : Nat} {ts : List Token} {x : Expr} (h : Reads n ts x) {chance : Chance}
    {g : Game} {q : ℚ} : Yields chance g ts q ↔ x.eval chance g = some [.number q] := by
  simp [Yields, h.parse]

theorem stores_of_assign {ts : List Token} {target : String} {x : Expr} {chance : Chance} {g : Game}
    {q : ℚ} (h : command? ts = some (.assign target x)) (hx : x.eval chance g = some [.number q]) :
    Stores chance g target ts q :=
  ⟨_, h, Command.run_assign_iff.mpr ⟨_, hx, rfl⟩⟩

namespace Operation

/-- What becomes of a quantity. -/
def result (op : Operation) (current v : ℚ) : ℚ :=
  match op with
  | add => current + v
  | subtract => current - v
  | set => v
  | multiply => current * v
  | divide => current / v

/-- The operator between a quantity and the amount. -/
def operator? : Operation → Option Operator
  | add => some .add
  | subtract => some .subtract
  | set => none
  | multiply => some .multiply
  | divide => some .divide

def assignmentExpr (op : Operation) (target : String) (x : Expr) : Expr :=
  match op.operator? with
  | some i => .binary i (.path target) x
  | none => x

def changeExpr (op : Operation) (current : String) (x : Expr) : Expr :=
  match op with
  | add => x
  | subtract => .signed .minus x
  | set => .binary .subtract x (.path current)
  | multiply => .binary .multiply (.path current) (.binary .subtract x (.number 1))
  | divide => .binary .subtract (.binary .divide (.path current) x) (.path current)

section Values

variable {target : String} {x : Expr} {chance : Chance} {g : Game} {current v : ℚ}

theorem eval_assignmentExpr {op : Operation} (hcurrent : g target = .number current)
    (hx : x.eval chance g = some [.number v]) (hdivisor : op = .divide → v ≠ 0) :
    (op.assignmentExpr target x).eval chance g = some [.number (op.result current v)] := by
  cases op with
  | divide =>
    simp [assignmentExpr, operator?, result, Expr.eval, Operator.apply?, hcurrent, hx, hdivisor rfl]
  | _ => simp [assignmentExpr, operator?, result, Expr.eval, Operator.apply?, hcurrent, hx]

theorem eval_changeExpr {op : Operation} (hcurrent : g target = .number current)
    (hx : x.eval chance g = some [.number v]) (hdivisor : op = .divide → v ≠ 0) :
    (op.changeExpr target x).eval chance g = some [.number (op.result current v - current)] := by
  cases op with
  | add => simp [changeExpr, result, hx]
  | subtract => simp [changeExpr, result, Expr.eval, Sign.apply?, hx]
  | set => simp [changeExpr, result, Expr.eval, Operator.apply?, hcurrent, hx]
  | multiply => simp [changeExpr, result, Expr.eval, Operator.apply?, hcurrent, hx, mul_sub]
  | divide => simp [changeExpr, result, Expr.eval, Operator.apply?, hcurrent, hx, hdivisor rfl]

end Values

/-- The assignment, with its target as one operand whatever its characters are. -/
def assignmentFragments (op : Operation) (target amount : String) : List Fragment :=
  .operand target :: .code " = " :: match op.operator? with
    | some i => [.operand target, .code (i.between ++ parenthesised amount)]
    | none => [.code (parenthesised amount)]

def changeFragments (op : Operation) (current amount : String) : List Fragment :=
  let amount := parenthesised amount
  match op with
  | add => [.code amount]
  | subtract => [.code ("-" ++ amount)]
  | set => [.code (amount ++ Operator.subtract.between), .operand current]
  | multiply =>
    [.operand current,
      .code (Operator.multiply.between ++ ("(" ++ (amount ++ Operator.subtract.between ++ "1") ++ ")"))]
  | divide =>
    [.operand current, .code (Operator.divide.between ++ (amount ++ Operator.subtract.between)),
      .operand current]

theorem join_assignmentFragments (op : Operation) (target amount : String) :
    String.join ((op.assignmentFragments target amount).map Fragment.text) =
      op.assignment target amount := by
  apply String.toList_inj.mp
  cases op <;> simp [assignmentFragments, operator?, assignment, Operator.between]

theorem join_changeFragments (op : Operation) (current amount : String) :
    String.join ((op.changeFragments current amount).map Fragment.text) =
      op.change current amount := by
  apply String.toList_inj.mp
  cases op <;> simp [changeFragments, change, Operator.between]

section Texts

variable {target amount : String} {x : Expr}

theorem tokens_between (i : Operator) (text : String) :
    amounts.tokens (i.between ++ text) = .operator i :: amounts.tokens text := by
  rw [Lexicon.tokens, String.toList_append, Lexicon.lex_operator, Lexicon.tokens]

theorem tokens_append_between {n : Nat} (h : amounts.Denotes n amount x) (i : Operator) :
    amounts.tokens (amount ++ i.between) = amounts.tokens amount ++ [.operator i] := by
  obtain ⟨ts, -, hl⟩ := h
  obtain ⟨hstop, hend⟩ := Lexicon.divides i []
  rw [List.append_nil] at hstop hend
  rw [Lexicon.tokens, String.toList_append, hl _ hstop, hend, Lexicon.Denotes.tokens hl]
  rfl

theorem level_lt_operandLevel (i : Operator) : i.level < operandLevel := by
  cases i <;> decide

theorem reads_assignment (h : amounts.Denotes operandLevel (parenthesised amount) x) (op : Operation) :
    command? ((op.assignmentFragments target amount).flatMap Fragment.tokens) =
      some (.assign target (op.assignmentExpr target x)) := by
  have hequals : amounts.tokens " = " = [.equals] := by decide +kernel
  have hamount := Amount.reads_tokens h
  have hcommand : ∀ {n : Nat} {ts : List Token} {e : Expr}, Reads n ts e →
      command? (.path target :: .equals :: ts) = some (.assign target e) := by
    intro n ts e hr
    rw [command?, hr.parse, Option.map_some]
  unfold assignmentFragments assignmentExpr
  cases op.operator? with
  | none => simpa [Fragment.tokens, hequals] using hcommand hamount
  | some i =>
    have hbinary : Reads i.level ([.path target] ++ .operator i :: amounts.tokens (parenthesised amount))
        (.binary i (.path target) x) :=
      .binary (Nat.le_refl i.level) (.path _ target) (hamount.mono (level_lt_operandLevel i))
    simpa [Fragment.tokens, hequals, tokens_between] using hcommand hbinary

theorem denotes_pred (h : amounts.Denotes operandLevel amount x) {n : Nat} :
    amounts.Denotes n ("(" ++ (amount ++ Operator.subtract.between ++ "1") ++ ")")
      (.binary .subtract x (.number 1)) :=
  .paren (.binary .subtract le_rfl (h.mono (by decide)) (denotes_digits 1)) (by decide)

theorem reads_change (h : amounts.Denotes operandLevel (parenthesised amount) x) (op : Operation) :
    Reads 1 ((op.changeFragments target amount).flatMap Fragment.tokens) (op.changeExpr target x) := by
  have hamount := Amount.reads_tokens h
  have hpath : ∀ n, Reads n [.path target] (.path target) := fun n => .path n target
  cases op with
  | add => simpa [changeFragments, changeExpr, Fragment.tokens] using hamount.mono (by decide)
  | subtract =>
    simpa [changeFragments, changeExpr, Fragment.tokens] using Amount.reads_tokens (h.minus (by decide))
  | set =>
    simpa [changeFragments, changeExpr, Fragment.tokens, tokens_append_between h] using
      Reads.binary (show 1 ≤ Operator.subtract.level by decide) (hamount.mono (by decide)) (hpath _)
  | multiply =>
    simpa [changeFragments, changeExpr, Fragment.tokens, tokens_between] using
      Reads.binary (show 1 ≤ Operator.multiply.level by decide) (hpath _)
        (Amount.reads_tokens (denotes_pred h))
  | divide =>
    have hquotient : Reads Operator.subtract.level
        ([.path target] ++ .operator .divide :: amounts.tokens (parenthesised amount))
        (.binary .divide (.path target) x) :=
      .binary (by decide) (hpath _) (hamount.mono (by decide))
    simpa [changeFragments, changeExpr, Fragment.tokens, tokens_between, tokens_append_between h] using
      Reads.binary (show 1 ≤ Operator.subtract.level by decide) hquotient (hpath _)

theorem denotes_assignment (htarget : amounts.IsPath target)
    (h : amounts.Denotes operandLevel (parenthesised amount) x) (op : Operation) :
    DenotesCommand (op.assignment target amount) (.assign target (op.assignmentExpr target x)) := by
  have hpath : ∀ n, amounts.Denotes n target (.path target) := fun n => .path htarget
  have hbinary : ∀ i : Operator, amounts.Denotes i.level (target ++ i.between ++ parenthesised amount)
      (.binary i (.path target) x) :=
    fun i => .binary i le_rfl (hpath _) (h.mono (level_lt_operandLevel i))
  cases op with
  | add => exact Lexicon.Denotes.assign htarget (hbinary .add)
  | subtract => exact Lexicon.Denotes.assign htarget (hbinary .subtract)
  | set => exact Lexicon.Denotes.assign htarget h
  | multiply => exact Lexicon.Denotes.assign htarget (hbinary .multiply)
  | divide => exact Lexicon.Denotes.assign htarget (hbinary .divide)

theorem denotes_change (htarget : amounts.IsPath target)
    (h : amounts.Denotes operandLevel (parenthesised amount) x) (op : Operation) :
    amounts.Denotes 1 (op.change target amount) (op.changeExpr target x) := by
  have hpath : ∀ n, amounts.Denotes n target (.path target) := fun n => .path htarget
  cases op with
  | add => exact h.mono (by decide)
  | subtract => exact h.minus (by decide)
  | set => exact .binary .subtract (by decide) (h.mono (by decide)) (hpath _)
  | multiply =>
    have htext : change .multiply target amount = target ++ Operator.multiply.between ++
        ("(" ++ (parenthesised amount ++ Operator.subtract.between ++ "1") ++ ")") := by
      apply String.toList_inj.mp
      simp [change, Operator.between]
    rw [htext]
    exact .binary .multiply (by decide) (hpath _) (denotes_pred h)
  | divide =>
    exact .binary .subtract (by decide) (.binary .divide (by decide) (hpath _) (h.mono (by decide)))
      (hpath _)

end Texts

/-- The one text stores the result in the target, and the other is the change that leads to it. -/
def Applies (op : Operation) (chance : Chance) (g : Game) (target : String)
    (assignment change : List Token) (current v : ℚ) : Prop :=
  Stores chance g target assignment (op.result current v) ∧
    ∃ d, Yields chance g change d ∧ current + d = op.result current v

theorem applies_of_reads {op : Operation} {target : String} {x : Expr} {assignment change : List Token}
    (hassignment : command? assignment = some (.assign target (op.assignmentExpr target x)))
    (hchange : Reads 1 change (op.changeExpr target x)) {chance : Chance} {g : Game} {current v : ℚ}
    (hcurrent : g target = .number current) (hx : x.eval chance g = some [.number v])
    (hdivisor : op = .divide → v ≠ 0) :
    op.Applies chance g target assignment change current v :=
  ⟨stores_of_assign hassignment (eval_assignmentExpr hcurrent hx hdivisor),
    op.result current v - current,
    (yields_iff hchange).mpr (eval_changeExpr hcurrent hx hdivisor), add_sub_cancel _ _⟩

/-- An operation gives the same number as an assignment and as a change: that of the target and
the whole amount. This holds of the fragments that make up the texts, whatever the target is
called, and of the texts themselves if the target is a name. Every amount is worth a number in a
regular game. -/
theorem assignment_and_change_agree (op : Operation) (value : Value) (id : String) {hint : String}
    (hhint : ∀ c ∈ hint.toList, isNameChar c = true) (effects : List Effect) (target : String) :
    let amount := (Resolved.ofValue value id hint .builtin (Capture.captures effects)).amount.expr
    let assignment := op.assignmentFragments target amount
    let change := op.changeFragments target amount
    String.join (assignment.map Fragment.text) = op.assignment target amount ∧
      String.join (change.map Fragment.text) = op.change target amount ∧
      (∀ chance g, Regular g → ∃ v, Yields chance g (amounts.tokens amount) v) ∧
      ∀ chance g current v, g target = .number current → Yields chance g (amounts.tokens amount) v →
        (op = .divide → v ≠ 0) →
          op.Applies chance g target (assignment.flatMap Fragment.tokens)
              (change.flatMap Fragment.tokens) current v ∧
            (amounts.IsPath target →
              op.Applies chance g target (amounts.tokens (op.assignment target amount))
                (amounts.tokens (op.change target amount)) current v) := by
  intro amount assignment change
  obtain ⟨x, hx⟩ := exists_stated value id hhint effects
  have hread : ∀ {chance g v}, Yields chance g (amounts.tokens amount) v ↔
      x.eval chance g = some [.number v] :=
    yields_iff (Amount.reads_tokens hx.whole)
  refine ⟨join_assignmentFragments op target amount, join_changeFragments op target amount, ?_, ?_⟩
  · intro chance g hg
    exact (hx.number chance g hg).imp fun _ => hread.mpr
  · intro chance g current v hcurrent hv hdivisor
    have hvalue := hread.mp hv
    refine ⟨applies_of_reads (reads_assignment hx.operand op) (reads_change hx.operand op) hcurrent
      hvalue hdivisor, fun htarget => ?_⟩
    obtain ⟨ts, -, hcommand, hlex⟩ := denotes_assignment htarget hx.operand op
    exact applies_of_reads (Lexicon.Denotes.tokens hlex ▸ hcommand)
      (Amount.reads_tokens (denotes_change htarget hx.operand op)) hcurrent hvalue hdivisor

/-- Ten dollars times five and twice the third ante are a hundred and ten. -/
theorem dollars_times_shifted_ante :
    let amount := (Resolved.ofValue (.str "GAMEVAR:ante|2|5") "e" "chips" .builtin
      (Capture.captures [])).amount.expr
    let chance : Chance := fun _ low _ => low
    let g := Function.update thirdAnte "G.GAME.dollars" (.number 10)
    multiply.Applies chance g "G.GAME.dollars"
      (amounts.tokens (multiply.assignment "G.GAME.dollars" amount))
        (amounts.tokens (multiply.change "G.GAME.dollars" amount)) 10 11 ∧
      multiply.result 10 11 = 110 := by
  intro amount chance g
  have hhint : ∀ c ∈ "chips".toList, isNameChar c = true := List.all_eq_true.mp (by decide)
  have hv : Yields chance g (amounts.tokens amount) 11 :=
    ⟨.binary .add (.path (Slot.read "ante"))
      (.binary .multiply (.path "G.GAME.round_resets.ante") (.number 2)),
      by decide +kernel, by decide +kernel⟩
  obtain ⟨-, -, -, happlies⟩ :=
    assignment_and_change_agree .multiply (.str "GAMEVAR:ante|2|5") "e" hhint [] "G.GAME.dollars"
  exact ⟨(happlies chance g 10 11 (by decide +kernel) hv (by decide)).2 (by decide), by decide +kernel⟩

end Operation

end JokerRules
