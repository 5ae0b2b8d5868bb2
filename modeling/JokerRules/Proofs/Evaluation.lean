import JokerRules.Proofs.AmountTexts
import JokerRules.Text.Blank
import Mathlib.Algebra.Order.Field.Rat
import Mathlib.Data.List.Forall2
import Mathlib.Logic.Function.Basic

/-! What statements of the generated code do to the game. Every path leads to a datum, and numbers
are exact. A function of the game that manages a counter adds its argument to it, and a seeded draw
gives any number between its bounds, a new one each time it is made. -/

namespace JokerRules.Expressions

inductive Datum
  | absent
  | truth (b : Bool)
  | number (q : ℚ)
  | table (entries : Nat)
  | text (s : String)
deriving DecidableEq

/-- Whether a test of the datum succeeds. -/
def Datum.isPresent : Datum → Bool
  | absent => false
  | truth b => b
  | _ => true

/-- What each path leads to. -/
abbrev Game := String → Datum

/-- The draws by their seeds and bounds. -/
abbrev Chance := String → ℚ → ℚ → ℚ

def Chance.Fair (chance : Chance) : Prop :=
  ∀ seed low high, low ≤ high → low ≤ chance seed low high ∧ chance seed low high ≤ high

def Sign.apply? : Sign → List Datum → Option (List Datum)
  | not, [d] => some [.truth !d.isPresent]
  | minus, [.number q] => some [.number (-q)]
  | length, [.table n] => some [.number n]
  | _, _ => none

/-- The second operand of `or` and `and` is looked at only where it counts. -/
def Operator.apply? (op : Operator) (a b : Option (List Datum)) : Option (List Datum) :=
  match op, a, b with
  | comma, some xs, some ys => some (xs ++ ys)
  | or, some [x], b => if x.isPresent then some [x] else b
  | and, some [x], b => if x.isPresent then b else some [x]
  | add, some [.number x], some [.number y] => some [.number (x + y)]
  | subtract, some [.number x], some [.number y] => some [.number (x - y)]
  | multiply, some [.number x], some [.number y] => some [.number (x * y)]
  | divide, some [.number x], some [.number y] => if y = 0 then none else some [.number (x / y)]
  | _, _, _ => none

def callValue? (chance : Chance) (function : String) (args : List Datum) : Option (List Datum) :=
  match args with
  | [.text seed, .number low, .number high] =>
    if function = "pseudorandom" then some [.number (chance seed low high)] else none
  | _ => none

namespace Expr

def eval (chance : Chance) (g : Game) : Expr → Option (List Datum)
  | number q => some [.number q]
  | path name => some [g name]
  | text s => some [.text s]
  | emptyTable => some [.table 0]
  | signed s e => (e.eval chance g).bind s.apply?
  | binary op a b => op.apply? (a.eval chance g) (b.eval chance g)
  | call function args => (args.eval chance g).bind (callValue? chance function)

/-- The paths that the expression reads. -/
def paths : Expr → List String
  | path name => [name]
  | signed _ e => e.paths
  | binary _ a b => a.paths ++ b.paths
  | call _ args => args.paths
  | _ => []

/-- Whether the expression calls no function. -/
def isPlain : Expr → Bool
  | signed _ e => e.isPlain
  | binary _ a b => a.isPlain && b.isPlain
  | call _ _ => false
  | _ => true

theorem eval_congr {chance : Chance} {g g' : Game} {e : Expr} (h : ∀ name ∈ e.paths, g name = g' name) :
    e.eval chance g = e.eval chance g' := by
  induction e with
  | number | text | emptyTable => rfl
  | path name => rw [eval, eval, h name (by simp [paths])]
  | signed s e ih => rw [eval, eval, ih h]
  | binary op a b iha ihb =>
    rw [eval, eval, iha fun name hname => h name (List.mem_append_left _ hname),
      ihb fun name hname => h name (List.mem_append_right _ hname)]
  | call function args ih => rw [eval, eval, ih h]

theorem eval_of_isPlain {e : Expr} (h : e.isPlain = true) (chance chance' : Chance) (g : Game) :
    e.eval chance g = e.eval chance' g := by
  induction e with
  | number | text | emptyTable | path => rfl
  | signed s e ih => rw [eval, eval, ih h]
  | binary op a b iha ihb =>
    rw [isPlain, Bool.and_eq_true] at h
    rw [eval, eval, iha h.1, ihb h.2]
  | call => exact nomatch h

end Expr

inductive Command
  | assign (target : String) (e : Expr)
  | call (function : String) (args : Expr)
deriving DecidableEq

def command? : List Token → Option Command
  | .path target :: .equals :: ts => (parse? ts).map (.assign target)
  | ts =>
    match parse? ts with
    | some (.call function args) => some (.call function args)
    | _ => none

/-- The statements of a text, one a line. -/
def commands? (text : String) : Option (List Command) :=
  ((amounts.tokens text).splitOn .lineEnd).mapM command?

/-- The counter that a function of the game adds its argument to. -/
def counter? (function : String) : Option String :=
  [("ease_hands_played", "G.GAME.current_round.hands_left"),
    ("ease_discard", "G.GAME.current_round.discards_left"),
    ("G.hand:change_size", "G.hand.config.card_limit"),
    ("change_shop_size", "G.GAME.shop.joker_max"),
    ("SMODS.change_free_rerolls", "G.GAME.current_round.free_rerolls")].lookup function

/-- The datum with a number added to it. -/
def Datum.add? : Datum → ℚ → Option Datum
  | number x, q => some (number (x + q))
  | _, _ => none

namespace Command

def run (chance : Chance) (g : Game) : Command → Option Game
  | assign target e =>
    match e.eval chance g with
    | some [d] => some (Function.update g target d)
    | _ => none
  | call function args =>
    match counter? function, args.eval chance g with
    | some counter, some [.number q] =>
      ((g counter).add? q).map fun d => Function.update g counter d
    | _, _ => none

variable {chance : Chance} {g g' : Game} {e : Expr}

theorem run_assign_iff {target : String} : (assign target e).run chance g = some g' ↔
    ∃ d, e.eval chance g = some [d] ∧ g' = Function.update g target d := by
  rw [run]
  constructor
  · intro h
    split at h
    · next d hd => exact ⟨d, hd, (Option.some.inj h).symm⟩
    · exact nomatch h
  · rintro ⟨d, hd, rfl⟩
    rw [hd]

theorem run_call_iff {function counter : String} (hcounter : counter? function = some counter) :
    (call function e).run chance g = some g' ↔
      ∃ v q, g counter = .number v ∧ e.eval chance g = some [.number q] ∧
        g' = Function.update g counter (.number (v + q)) := by
  rw [run, hcounter]
  constructor
  · intro h
    split at h
    · next c q hc hq =>
      obtain rfl := Option.some.inj hc
      obtain ⟨d, hd, rfl⟩ := Option.map_eq_some_iff.mp h
      cases hv : g counter with
      | number v =>
        rw [hv] at hd
        exact ⟨v, q, rfl, hq, by rw [← Option.some.inj hd]⟩
      | absent | truth | table | text =>
        rw [hv] at hd
        exact nomatch hd
    · exact nomatch h
  · rintro ⟨v, q, hv, hq, rfl⟩
    simp [hq, hv, Datum.add?]

end Command

/-- Runs statements one after another, each with draws of its own. -/
inductive RunsTo : List Command → Game → Game → Prop
  | done (g : Game) : RunsTo [] g g
  | step {c : Command} {cs : List Command} {g between g' : Game} (chance : Chance)
      (hfair : chance.Fair) (h : c.run chance g = some between) (hrest : RunsTo cs between g') :
      RunsTo (c :: cs) g g'

theorem runsTo_cons_iff {c : Command} {cs : List Command} {g g' : Game} :
    RunsTo (c :: cs) g g' ↔
      ∃ chance between, chance.Fair ∧ c.run chance g = some between ∧ RunsTo cs between g' := by
  constructor
  · rintro (_ | ⟨chance, hfair, h, hrest⟩)
    exact ⟨chance, _, hfair, h, hrest⟩
  · rintro ⟨chance, between, hfair, h, hrest⟩
    exact .step chance hfair h hrest

theorem runsTo_nil_iff {g g' : Game} : RunsTo [] g g' ↔ g' = g :=
  ⟨fun h => by cases h; rfl, fun h => h ▸ .done g⟩

def LeadsTo (text : String) (g g' : Game) : Prop :=
  ∃ cs, commands? text = some cs ∧ RunsTo cs g g'

/-- Once the first text has been executed, the second one can be, and it gives back the game as it
was. -/
def Restores (enter exit : String) : Prop :=
  ∀ g g', LeadsTo enter g g' →
    (∃ g'', LeadsTo exit g' g'') ∧ ∀ g'', LeadsTo exit g' g'' → g'' = g

/-- An expression holds no equals sign and stays on its line. -/
theorem Reads.notMem {n : Nat} {ts : List Token} {e : Expr} (h : Reads n ts e) {t : Token}
    (ht : t = .lineEnd ∨ t = .equals) : t ∉ ts := by
  have hends : t ≠ .opening ∧ t ≠ .closing := by rcases ht with rfl | rfl <;> simp
  induction h with
  | number | path | text | emptyTable => rcases ht with rfl | rfl <;> simp
  | paren _ ih => simpa [hends] using ih
  | call function _ ih =>
    have hpath : t ≠ .path function := by rcases ht with rfl | rfl <;> simp
    simpa [hends, hpath] using ih
  | signed s _ _ ih =>
    have hsign : t ≠ s.token := by rcases ht with rfl | rfl <;> cases s <;> simp [Sign.token]
    simpa [hsign] using ih
  | @binary n op ts us a b _ _ _ iha ihb =>
    have hop : t ≠ .operator op := by rcases ht with rfl | rfl <;> simp
    simp [iha, ihb, hop]

/-- The text is the statement, if no word goes on after it. -/
def DenotesCommand (text : String) (c : Command) : Prop :=
  ∃ ts, .lineEnd ∉ ts ∧ command? ts = some c ∧
    ∀ rest, amounts.Delimited rest →
      amounts.lex (.word []) (text.toList ++ rest) = ts ++ amounts.lex (.word []) rest

theorem Lexicon.Denotes.assign {target a : String} {x : Expr} {n : Nat} (htarget : amounts.IsPath target)
    (h : amounts.Denotes n a x) : DenotesCommand (target ++ " = " ++ a) (.assign target x) := by
  obtain ⟨ts, hr, hl⟩ := h
  refine ⟨.path target :: .equals :: ts, by simpa using hr.notMem (.inl rfl), ?_,
    fun rest hrest => ?_⟩
  · rw [command?, hr.parse, Option.map_some]
  · have htext : (target ++ " = " ++ a).toList ++ rest =
        target.toList ++ ' ' :: '=' :: ' ' :: (a.toList ++ rest) := by simp
    rw [htext, Lexicon.lex_word htarget.1 [] (Lexicon.delimited_cons (by decide) _), List.nil_append,
      htarget.2,
      Lexicon.lex_sign (by decide) (by decide), Lexicon.lex_sign (by decide) (by decide),
      Lexicon.lex_sign (by decide) (by decide), hl rest hrest]
    rfl

theorem Lexicon.Denotes.command {text function : String} {args : Expr} {n : Nat}
    (h : amounts.Denotes n text (.call function args)) : DenotesCommand text (.call function args) := by
  obtain ⟨ts, hr, hl⟩ := h
  refine ⟨ts, hr.notMem (.inl rfl), ?_, hl⟩
  have hequals := hr.notMem (.inr rfl)
  unfold command?
  split
  · exact absurd (by simp) hequals
  · rw [hr.parse]

theorem commands?_unlines {texts : List String} {cs : List Command}
    (h : List.Forall₂ DenotesCommand texts cs) (hne : texts ≠ []) :
    commands? (Text.unlines texts) = some cs := by
  induction h with
  | nil => exact absurd rfl hne
  | @cons text c texts cs htext hrest ih =>
    obtain ⟨ts, hend, hc, hl⟩ := htext
    cases hrest with
    | nil =>
      have htokens : amounts.tokens text = ts := Lexicon.Denotes.tokens hl
      simp [commands?, Text.unlines, htokens, List.splitOn_eq_singleton hend, hc]
    | @cons next c' texts cs hnext hrest =>
      have htext : (Text.unlines (text :: next :: texts)).toList =
          text.toList ++ '\n' :: (Text.unlines (next :: texts)).toList := by
        simp [Text.unlines, String.intercalate_cons_cons]
      have htokens : amounts.tokens (Text.unlines (text :: next :: texts)) =
          ts ++ .lineEnd :: amounts.tokens (Text.unlines (next :: texts)) := by
        rw [Lexicon.tokens, htext, hl _ (Lexicon.delimited_cons (by decide) _),
          Lexicon.lex_sign (by decide) (by decide)]
        rfl
      have hothers := ih (by simp)
      rw [commands?] at hothers ⊢
      rw [htokens, List.splitOn_append_cons_self_of_not_mem hend, List.mapM_cons, hc, hothers]
      rfl

end JokerRules.Expressions
