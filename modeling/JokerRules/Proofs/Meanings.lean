import JokerRules.Proofs.Evaluation

/-! Expressions under any meaning of their parts. Exact evaluation is one meaning, and a meaning
with more functions gives every value that one with fewer gives. -/

namespace JokerRules.Expressions

/-- What the parts of an expression stand for. -/
structure Meaning (D : Type) where
  number : ℚ → D
  path : String → D
  text : String → D
  emptyTable : D
  signed : Sign → D → D
  binary : Operator → D → D → D
  call : String → D → D

variable {D : Type}

def Expr.under (M : Meaning D) : Expr → D
  | number q => M.number q
  | path name => M.path name
  | text s => M.text s
  | emptyTable => M.emptyTable
  | signed s e => M.signed s (e.under M)
  | binary op a b => M.binary op (a.under M) (b.under M)
  | call function args => M.call function (args.under M)

/-- What tokens stand for, if they are an expression. -/
def Meaning.value? (M : Meaning D) (ts : List Token) : Option D :=
  (parse? ts).map (Expr.under M)

theorem Reads.value? {n : Nat} {ts : List Token} {e : Expr} (h : Reads n ts e) (M : Meaning D) :
    M.value? ts = some (e.under M) := by
  rw [Meaning.value?, h.parse, Option.map_some]

theorem Lexicon.Denotes.value? {L : Lexicon} {n : Nat} {text : String} {e : Expr}
    (h : L.Denotes n text e) (M : Meaning D) : M.value? (L.tokens text) = some (e.under M) := by
  rw [Meaning.value?, h.parse, Option.map_some]

/-- The functions of the game by their names and arguments. -/
abbrev Functions := String → List Datum → Option (List Datum)

/-- Exact numbers in a game that has the given functions. -/
def Meaning.exact (functions : Functions) (g : Game) : Meaning (Option (List Datum)) where
  number q := some [.number q]
  path name := some [g name]
  text s := some [.text s]
  emptyTable := some [.table 0]
  signed s a := a.bind s.apply?
  binary op a b := op.apply? a b
  call function args := args.bind (functions function)

section Exact

variable (functions : Functions) (g : Game)

@[simp]
theorem Expr.under_number (q : ℚ) : (number q).under (.exact functions g) = some [.number q] :=
  rfl

@[simp]
theorem Expr.under_path (name : String) : (path name).under (.exact functions g) = some [g name] :=
  rfl

@[simp]
theorem Expr.under_signed (s : Sign) (e : Expr) :
    (signed s e).under (.exact functions g) = (e.under (.exact functions g)).bind s.apply? :=
  rfl

@[simp]
theorem Expr.under_binary (op : Operator) (a b : Expr) :
    (binary op a b).under (.exact functions g) =
      op.apply? (a.under (.exact functions g)) (b.under (.exact functions g)) :=
  rfl

@[simp]
theorem Expr.under_call (function : String) (args : Expr) :
    (call function args).under (.exact functions g) =
      (args.under (.exact functions g)).bind (functions function) :=
  rfl

end Exact

theorem Expr.eval_eq_under (chance : Chance) (g : Game) (e : Expr) :
    e.eval chance g = e.under (.exact (callValue? chance) g) := by
  induction e with
  | number | path | text | emptyTable => rfl
  | signed s e ih => rw [eval, under_signed, ih]
  | binary op a b iha ihb => rw [eval, under_binary, iha, ihb]
  | call function args ih => rw [eval, under_call, ih]

/-- An operator gives the same value once more is known of its operands. -/
theorem Operator.apply?_mono {op : Operator} {a a' b b' : Option (List Datum)} {ds : List Datum}
    (ha : ∀ xs, a = some xs → a' = some xs) (hb : ∀ ys, b = some ys → b' = some ys)
    (h : op.apply? a b = some ds) : op.apply? a' b' = some ds := by
  cases a with
  | none => cases op <;> exact nomatch h
  | some xs =>
    rw [ha xs rfl]
    cases b with
    | some ys => rwa [hb ys rfl]
    | none =>
      cases op with
      | comma | add | subtract | multiply | divide => simp [ Operator.apply?] at h
      | or | and =>
        match xs, h with
        | [x], h =>
          simp only [ Operator.apply?] at h ⊢
          split at h
          · simp_all
          · simp_all

theorem Expr.under_exact_mono {functions functions' : Functions} {g : Game}
    (hmono : ∀ function args ds, functions function args = some ds →
      functions' function args = some ds) {e : Expr} {ds : List Datum}
    (h : e.under (.exact functions g) = some ds) : e.under (.exact functions' g) = some ds := by
  induction e generalizing ds with
  | number | path | text | emptyTable => exact h
  | signed s e ih =>
    obtain ⟨xs, hxs, hs⟩ := Option.bind_eq_some_iff.mp h
    exact Option.bind_eq_some_iff.mpr ⟨xs, ih hxs, hs⟩
  | binary op a b iha ihb => exact Operator.apply?_mono (fun _ => iha) (fun _ => ihb) h
  | call function args ih =>
    obtain ⟨xs, hxs, hcall⟩ := Option.bind_eq_some_iff.mp h
    exact Option.bind_eq_some_iff.mpr ⟨xs, ih hxs, hmono function xs ds hcall⟩

end JokerRules.Expressions
