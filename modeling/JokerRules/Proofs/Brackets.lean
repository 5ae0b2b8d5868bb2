import JokerRules.Proofs.Templates
import JokerRules.Text.Layout
import JokerRules.Text.Quoted
import Mathlib.Data.List.Forall2
import Mathlib.Tactic.Tauto

/-! Brackets of the generated code. A scan from left to right keeps the brackets that are open and
knows whether it stands inside a string literal; a literal has to end on its line. A text is neutral
if it can stand anywhere in the code without a trace in the scan. -/

namespace JokerRules.Brackets

open Text

inductive Bracket
  | round | square | curly
deriving DecidableEq

inductive Delimiter
  | double | single
deriving DecidableEq

inductive CharClass
  | plain | backslash | lineEnd
  | quote (d : Delimiter)
  | opening (b : Bracket)
  | closing (b : Bracket)
deriving DecidableEq

def classOf (c : Char) : CharClass :=
  match c.toNat with
  | 34 => .quote .double
  | 39 => .quote .single
  | 92 => .backslash
  | 10 | 13 => .lineEnd
  | 40 => .opening .round
  | 41 => .closing .round
  | 91 => .opening .square
  | 93 => .closing .square
  | 123 => .opening .curly
  | 125 => .closing .curly
  | _ => .plain

example : ['"', '\'', '\\', '\n', '\r', '(', ')', '[', ']', '\x7b', '\x7d', ' '].map classOf =
    [.quote .double, .quote .single, .backslash, .lineEnd, .lineEnd, .opening .round,
      .closing .round, .opening .square, .closing .square, .opening .curly, .closing .curly,
      .plain] := by
  decide

inductive Mode
  | code
  | literal (d : Delimiter)
  /-- After a backslash in a literal. -/
  | escape (d : Delimiter)
deriving DecidableEq

structure Scan where
  mode : Mode
  /-- The open brackets, the innermost first. -/
  opened : List Bracket
deriving DecidableEq

def close (b : Bracket) : List Bracket → Option (List Bracket)
  | [] => none
  | a :: bs => if a = b then some bs else none

def step : Scan → CharClass → Option Scan
  | ⟨.code, bs⟩, .quote d => some ⟨.literal d, bs⟩
  | ⟨.code, bs⟩, .opening b => some ⟨.code, b :: bs⟩
  | ⟨.code, bs⟩, .closing b => (close b bs).map fun rest => ⟨.code, rest⟩
  | ⟨.code, bs⟩, _ => some ⟨.code, bs⟩
  | ⟨.literal d, bs⟩, .quote e => some ⟨if d = e then .code else .literal d, bs⟩
  | ⟨.literal d, bs⟩, .backslash => some ⟨.escape d, bs⟩
  | ⟨.escape d, bs⟩, .backslash => some ⟨.literal d, bs⟩
  | ⟨.escape d, bs⟩, .quote _ => some ⟨.literal d, bs⟩
  | ⟨_, _⟩, .lineEnd => none
  | ⟨.literal d, bs⟩, _ => some ⟨.literal d, bs⟩
  | ⟨.escape d, bs⟩, _ => some ⟨.literal d, bs⟩

def scan (s : Scan) : List Char → Option Scan
  | [] => some s
  | c :: cs => (step s (classOf c)).bind (scan · cs)

/-- Every literal ends on its line, and the brackets outside literals are properly nested. -/
def WellBracketed (text : String) : Prop :=
  scan ⟨.code, []⟩ text.toList = some ⟨.code, []⟩

/-- The text leaves no trace in a scan. Its definition is not unfolded outside this module:
comparing two neutral texts must never start to compare the scans of their characters. -/
def Neutral (text : String) : Prop :=
  ∀ bs, scan ⟨.code, bs⟩ text.toList = some ⟨.code, bs⟩

theorem scan_append (s : Scan) (xs ys : List Char) :
    scan s (xs ++ ys) = (scan s xs).bind (scan · ys) := by
  induction xs generalizing s with
  | nil => rfl
  | cons c xs ih =>
    simp only [List.cons_append, scan]
    cases step s (classOf c) with
    | none => rfl
    | some s => exact ih s

theorem Neutral.append {a b : String} (ha : Neutral a) (hb : Neutral b) : Neutral (a ++ b) := by
  intro bs
  rw [String.toList_append, scan_append, ha bs]
  exact hb bs

theorem neutral_ite {p : Prop} [Decidable p] {a b : String} (ha : Neutral a) (hb : Neutral b) :
    Neutral (if p then a else b) := by
  split
  · exact ha
  · exact hb

def Scan.inside (s : Scan) (outer : List Bracket) : Scan :=
  ⟨s.mode, s.opened ++ outer⟩

theorem close_append {b : Bracket} {bs cs : List Bracket} (h : close b bs = some cs)
    (outer : List Bracket) : close b (bs ++ outer) = some (cs ++ outer) := by
  cases bs with
  | nil => simp [close] at h
  | cons a bs =>
    by_cases hab : a = b
    · simp only [close, hab, if_true, Option.some.injEq] at h
      simp [close, hab, h]
    · simp [close, hab] at h

theorem step_inside {s t : Scan} {k : CharClass} (h : step s k = some t) (outer : List Bracket) :
    step (s.inside outer) k = some (t.inside outer) := by
  obtain ⟨mode, bs⟩ := s
  cases mode with
  | code =>
    cases k with
    | closing b =>
      obtain ⟨cs, hcs, rfl⟩ := Option.map_eq_some_iff.mp h
      simp [step, Scan.inside, close_append hcs outer]
    | _ => cases h; rfl
  | literal d => cases k <;> cases h <;> rfl
  | escape d => cases k <;> cases h <;> rfl

theorem scan_inside {s t : Scan} {cs : List Char} (h : scan s cs = some t)
    (outer : List Bracket) : scan (s.inside outer) cs = some (t.inside outer) := by
  induction cs generalizing s with
  | nil =>
    cases h
    rfl
  | cons c cs ih =>
    obtain ⟨u, hu, h⟩ := Option.bind_eq_some_iff.mp h
    rw [scan, step_inside hu outer]
    exact ih h

theorem WellBracketed.neutral {text : String} (h : WellBracketed text) : Neutral text :=
  fun bs => scan_inside h bs

/-- A text without brackets, quotes, backslashes and line ends. -/
def Plain (text : String) : Prop :=
  ∀ c ∈ text.toList, classOf c = .plain

theorem step_plain (s : Scan) (h : ∀ d, s.mode ≠ .escape d) : step s .plain = some s := by
  obtain ⟨mode, bs⟩ := s
  cases mode with
  | code => rfl
  | literal d => rfl
  | escape d => exact absurd rfl (h d)

theorem scan_plain {cs : List Char} (hcs : ∀ c ∈ cs, classOf c = .plain) {s : Scan}
    (h : ∀ d, s.mode ≠ .escape d) : scan s cs = some s := by
  induction cs with
  | nil => rfl
  | cons c cs ih =>
    rw [scan, hcs c (by simp), step_plain s h, Option.bind_some]
    exact ih (fun e he => hcs e (by simp [he]))

theorem Plain.neutral {text : String} (h : Plain text) : Neutral text :=
  fun _ => scan_plain h (fun _ => by simp)

theorem Plain.append {a b : String} (ha : Plain a) (hb : Plain b) : Plain (a ++ b) := by
  intro c hc
  rcases List.mem_append.mp (String.toList_append ▸ hc) with hc | hc
  · exact ha c hc
  · exact hb c hc

theorem eq_of_classOf_backslash {c : Char} (h : classOf c = .backslash) : c = '\\' := by
  unfold classOf at h
  split at h <;> simp_all [Char.ext_iff, UInt32.ext_iff]

theorem eq_of_classOf_lineEnd {c : Char} (h : classOf c = .lineEnd) : c = '\n' ∨ c = '\r' := by
  unfold classOf at h
  split at h <;> simp_all [Char.ext_iff, UInt32.ext_iff]

def Delimiter.char : Delimiter → Char
  | double => '"'
  | single => '\''

theorem eq_of_classOf_quote {c : Char} {d : Delimiter} (h : classOf c = .quote d) :
    c = d.char := by
  unfold classOf at h
  split at h <;> simp at h <;> subst h <;> simp_all [Delimiter.char, Char.ext_iff, UInt32.ext_iff]

theorem classOf_char (d : Delimiter) : classOf d.char = .quote d := by
  cases d <;> rfl

/-- An escaped character keeps the scan inside its literal. -/
theorem scan_escapeChar (d : Delimiter) (c : Char) (bs : List Bracket) :
    scan ⟨.literal d, bs⟩ (escapeChar d.char c) = some ⟨.literal d, bs⟩ := by
  unfold escapeChar
  split
  · rfl
  split
  · rfl
  split
  · rfl
  split
  · rfl
  split
  · next hc => cases d <;> subst hc <;> rfl
  · next hback hfeed hreturn _ hdelimiter =>
    cases hc : classOf c with
    | backslash => exact absurd (eq_of_classOf_backslash hc) hback
    | lineEnd => exact ((eq_of_classOf_lineEnd hc).elim hfeed hreturn).elim
    | quote e =>
      have hde : d ≠ e := by
        rintro rfl
        exact hdelimiter (eq_of_classOf_quote hc)
      simp [scan, hc, step, hde]
    | plain => simp [scan, hc, step]
    | opening b => simp [scan, hc, step]
    | closing b => simp [scan, hc, step]

theorem scan_escaped (d : Delimiter) (cs : List Char) (bs : List Bracket) :
    scan ⟨.literal d, bs⟩ (cs.flatMap (escapeChar d.char)) = some ⟨.literal d, bs⟩ := by
  induction cs with
  | nil => rfl
  | cons c cs ih =>
    rw [List.flatMap_cons, scan_append, scan_escapeChar d c bs]
    exact ih

theorem neutral_quoteWith (d : Delimiter) (s : String) : Neutral (quoteWith d.char s) := by
  intro bs
  have hclose : scan ⟨.literal d, bs⟩ [d.char] = some ⟨.code, bs⟩ := by
    simp [scan, step, classOf_char]
  rw [quoteWith, String.toList_ofList, scan, classOf_char, step, Option.bind_some, scan_append,
    scan_escaped, Option.bind_some, hclose]

theorem neutral_quote (s : String) : Neutral (quote s) :=
  neutral_quoteWith .double s

theorem neutral_singleQuoted (s : String) : Neutral (singleQuoted s) :=
  neutral_quoteWith .single s

theorem not_mem_quoteWith {delimiter c : Char} (hc : c = '\n' ∨ c = '\r') (hdelimiter : delimiter ≠ c)
    (s : String) : c ∉ (quoteWith delimiter s).toList := by
  have hescape : ∀ x, c ∉ escapeChar delimiter x := by
    intro x
    unfold escapeChar
    rcases hc with rfl | rfl <;> split_ifs <;> simp_all [eq_comm]
  simpa [quoteWith, hdelimiter.symm, List.mem_flatMap] using fun x _ => hescape x

theorem neutral_fixed {cs : List Char} (h : scan ⟨.code, []⟩ cs = some ⟨.code, []⟩) :
    Neutral (String.ofList cs) :=
  WellBracketed.neutral (by rwa [WellBracketed, String.toList_ofList])

theorem plain_ofList {cs : List Char} (h : ∀ c ∈ cs, classOf c = .plain) :
    Plain (String.ofList cs) := by
  intro c hc
  exact h c (by simpa using hc)

theorem plain_fixed {cs : List Char} (h : (cs.all fun c => classOf c = .plain) = true) :
    Plain (String.ofList cs) :=
  plain_ofList (by simpa using h)

theorem neutral_iff {text : String} : Neutral text ↔ WellBracketed text :=
  ⟨fun h => h [], WellBracketed.neutral⟩

theorem Neutral.scan {text : String} (h : Neutral text) (bs : List Bracket) :
    Brackets.scan ⟨.code, bs⟩ text.toList = some ⟨.code, bs⟩ :=
  h bs

theorem plain_iff {text : String} : Plain text ↔ ∀ c ∈ text.toList, classOf c = .plain :=
  Iff.rfl

attribute [irreducible] Neutral Plain

end JokerRules.Brackets
