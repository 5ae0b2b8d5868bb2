import Mathlib.Data.Rat.Defs
import Mathlib.Order.Nat

/-! Expressions of the generated code as the game reads them. Operators bind by their level, equal
levels group to the left, signs bind tighter than operators, and parentheses override. The reader
keeps what is pending on a stack, and it finds the expression of every list of tokens of the
grammar. -/

namespace JokerRules.Expressions

inductive Operator
  /-- Divides the arguments of a call. -/
  | comma
  | or | and | add | subtract | multiply | divide
deriving DecidableEq

inductive Sign
  | not
  | minus
  /-- The number of entries of a table. -/
  | length
deriving DecidableEq

inductive Expr
  | number (q : ℚ)
  /-- A name with everything that is selected from it. -/
  | path (name : String)
  | text (s : String)
  | emptyTable
  | signed (s : Sign) (e : Expr)
  | binary (op : Operator) (a b : Expr)
  | call (function : String) (args : Expr)
deriving DecidableEq

inductive Token
  | number (q : ℚ)
  | path (name : String)
  | text (s : String)
  | operator (op : Operator)
  | negation
  | length
  | opening
  | closing
  | openingBrace
  | closingBrace
  | equals
  | lineEnd
  /-- Anything that no expression holds. -/
  | stray
deriving DecidableEq

/-- The higher the level of an operator, the tighter it binds. -/
def Operator.level : Operator → Nat
  | comma => 0
  | or => 1
  | and => 2
  | add | subtract => 3
  | multiply | divide => 4

def signLevel : Nat := 5

/-- An operand needs no parentheses. -/
def operandLevel : Nat := 6

def Sign.token : Sign → Token
  | not => .negation
  | minus => .operator .subtract
  | length => .length

/-- `Reads n ts e`: the tokens are the expression, and every operator outside parentheses has at
least level `n`. -/
inductive Reads : Nat → List Token → Expr → Prop
  | number (n : Nat) (q : ℚ) : Reads n [.number q] (.number q)
  | path (n : Nat) (name : String) : Reads n [.path name] (.path name)
  | text (n : Nat) (s : String) : Reads n [.text s] (.text s)
  | emptyTable (n : Nat) : Reads n [.openingBrace, .closingBrace] .emptyTable
  | paren {n : Nat} {ts : List Token} {e : Expr} :
      Reads 1 ts e → Reads n (.opening :: ts ++ [.closing]) e
  | call {n : Nat} {ts : List Token} {e : Expr} (function : String) :
      Reads 0 ts e → Reads n (.path function :: .opening :: ts ++ [.closing]) (.call function e)
  | signed {n : Nat} {ts : List Token} {e : Expr} (s : Sign) :
      n ≤ signLevel → Reads signLevel ts e → Reads n (s.token :: ts) (.signed s e)
  | binary {n : Nat} {op : Operator} {ts us : List Token} {a b : Expr} :
      n ≤ op.level → Reads op.level ts a → Reads (op.level + 1) us b →
      Reads n (ts ++ .operator op :: us) (.binary op a b)

/-- What waits for an operand. -/
inductive Pending
  | paren
  | brace
  | call (function : String)
  | signed (s : Sign)
  | left (op : Operator) (a : Expr)
deriving DecidableEq

/-- Gives an operand to everything pending that binds at least as tight as level `n`. -/
def collapse (n : Nat) : List Pending → Expr → List Pending × Expr
  | .signed s :: ps, e => collapse n ps (.signed s e)
  | .left op a :: ps, e =>
    if n ≤ op.level then collapse n ps (.binary op a e) else (.left op a :: ps, e)
  | ps, e => (ps, e)

/-- The stack, and the operand that has been read last if an operator is due. -/
abbrev State := List Pending × Option Expr

/-- The operand that a closing parenthesis completes. Commas stand in calls only. -/
def close? (ps : List Pending) (e : Expr) : Option State :=
  match collapse 0 ps e with
  | (.call function :: qs, args) => some (qs, some (.call function args))
  | (.paren :: qs, _) =>
    if (collapse 1 ps e).1 = .paren :: qs then some (qs, some (collapse 1 ps e).2) else none
  | _ => none

def step : State → Token → Option State
  | (ps, none), .number q => some (ps, some (.number q))
  | (ps, none), .path name => some (ps, some (.path name))
  | (ps, none), .text s => some (ps, some (.text s))
  | (ps, none), .operator .subtract => some (.signed .minus :: ps, none)
  | (ps, none), .negation => some (.signed .not :: ps, none)
  | (ps, none), .length => some (.signed .length :: ps, none)
  | (ps, none), .opening => some (.paren :: ps, none)
  | (ps, none), .openingBrace => some (.brace :: ps, none)
  | (.brace :: ps, none), .closingBrace => some (ps, some .emptyTable)
  | (ps, some (.path function)), .opening => some (.call function :: ps, none)
  | (ps, some e), .operator op =>
    some (.left op (collapse op.level ps e).2 :: (collapse op.level ps e).1, none)
  | (ps, some e), .closing => close? ps e
  | _, _ => none

def run (s : State) : List Token → Option State
  | [] => some s
  | t :: ts => (step s t).bind (run · ts)

def parse? (ts : List Token) : Option Expr :=
  match run ([], none) ts with
  | some (ps, some e) => if (collapse 0 ps e).1 = [] then some (collapse 0 ps e).2 else none
  | _ => none

theorem run_append (s : State) (ts us : List Token) :
    run s (ts ++ us) = (run s ts).bind (run · us) := by
  induction ts generalizing s with
  | nil => rfl
  | cons t ts ih =>
    simp only [List.cons_append, run, Option.bind_assoc]
    cases step s t with
    | none => rfl
    | some s => exact ih s

theorem Reads.mono {m n : Nat} {ts : List Token} {e : Expr} (h : Reads n ts e) (hm : m ≤ n) :
    Reads m ts e := by
  cases h with
  | number => exact .number _ _
  | path => exact .path _ _
  | text => exact .text _ _
  | emptyTable => exact .emptyTable _
  | paren h => exact .paren h
  | call function h => exact .call function h
  | signed s hn h => exact .signed s (hm.trans hn) h
  | binary hn ha hb => exact .binary (hm.trans hn) ha hb

theorem collapse_collapse {m n : Nat} (hm : m ≤ n) (ps : List Pending) (e : Expr) :
    collapse m (collapse n ps e).1 (collapse n ps e).2 = collapse m ps e := by
  fun_induction collapse n ps e with
  | case1 s ps e ih => rw [ih, collapse]
  | case2 op a ps e h ih => rw [ih, collapse, if_pos (hm.trans h)]
  | case3 => rfl
  | case4 => rfl

/-- No operator of level `n` or more reaches into the stack. -/
def Blocks (n : Nat) (ps : List Pending) : Prop :=
  ∀ op : Operator, n ≤ op.level → ∀ e, collapse op.level ps e = (ps, e)

theorem Blocks.mono {m n : Nat} {ps : List Pending} (h : Blocks m ps) (hm : m ≤ n) : Blocks n ps :=
  fun op hop => h op (hm.trans hop)

theorem blocks_left (op : Operator) (a : Expr) (ps : List Pending) :
    Blocks (op.level + 1) (.left op a :: ps) := by
  intro i hi e
  have : ¬ i.level ≤ op.level := by omega
  simp [collapse, this]

theorem blocks_signed (s : Sign) (ps : List Pending) : Blocks signLevel (.signed s :: ps) := by
  intro op hop
  cases op <;> simp [Operator.level, signLevel] at hop

/-- Reading an expression of level `n` leaves it pending: every operator of a level up to `n` that
follows finds the whole expression as its operand. -/
theorem Reads.run {n : Nat} {ts : List Token} {e : Expr} (h : Reads n ts e)
    (ps : List Pending) (hp : Blocks n ps) :
    ∃ qs x, Expressions.run (ps, none) ts = some (qs, some x) ∧
      ∀ m ≤ n, collapse m qs x = collapse m ps e := by
  induction h generalizing ps with
  | number n q => exact ⟨ps, .number q, rfl, fun _ _ => rfl⟩
  | path n name => exact ⟨ps, .path name, rfl, fun _ _ => rfl⟩
  | text n s => exact ⟨ps, .text s, rfl, fun _ _ => rfl⟩
  | emptyTable n => exact ⟨ps, .emptyTable, rfl, fun _ _ => rfl⟩
  | @paren n ts e _ ih =>
    obtain ⟨qs, x, hr, hc⟩ := ih (.paren :: ps) (fun _ _ _ => rfl)
    have hclose : collapse 1 qs x = (.paren :: ps, e) := hc 1 le_rfl
    have hparen : collapse 0 qs x = (.paren :: ps, e) := by
      rw [← collapse_collapse (Nat.zero_le 1), hclose, collapse]
      all_goals simp
    refine ⟨ps, e, ?_, fun _ _ => rfl⟩
    simp [Expressions.run, step, run_append, hr, close?, hclose, hparen]
  | @call n ts e function _ ih =>
    obtain ⟨qs, x, hr, hc⟩ := ih (.call function :: ps) (fun _ _ _ => rfl)
    have hclose : collapse 0 qs x = (.call function :: ps, e) := hc 0 le_rfl
    refine ⟨ps, .call function e, ?_, fun _ _ => rfl⟩
    simp [Expressions.run, step, run_append, hr, close?, hclose]
  | @signed n ts e s hn _ ih =>
    obtain ⟨qs, x, hr, hc⟩ := ih (.signed s :: ps) (blocks_signed s ps)
    refine ⟨qs, x, ?_, fun m hm => hc m (hm.trans hn)⟩
    cases s <;> exact hr
  | @binary n op ts us a b hn _ _ iha ihb =>
    obtain ⟨qs, x, hra, hca⟩ := iha ps (hp.mono hn)
    have hleft : collapse op.level qs x = (ps, a) := (hca _ le_rfl).trans (hp op hn a)
    obtain ⟨rs, y, hrb, hcb⟩ := ihb (.left op a :: ps) (blocks_left op a ps)
    refine ⟨rs, y, ?_, fun m hm => ?_⟩
    · simp [Expressions.run, step, run_append, hra, hleft, hrb]
    · have hop : m ≤ op.level := hm.trans hn
      rw [hcb m (by omega)]
      simp [collapse, hop]

/-- The reader finds the expression of every text of the grammar, so there is only one. -/
theorem Reads.parse {n : Nat} {ts : List Token} {e : Expr} (h : Reads n ts e) :
    parse? ts = some e := by
  obtain ⟨qs, x, hr, hc⟩ := (h.mono (Nat.zero_le n)).run [] (fun _ _ _ => rfl)
  have hend : collapse 0 qs x = ([], e) := hc 0 le_rfl
  simp [parse?, hr, hend]

end JokerRules.Expressions
