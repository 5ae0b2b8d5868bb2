import JokerRules.Proofs.Brackets.Values
import JokerRules.Proofs.Statements
import JokerRules.Proofs.Templates

/-! Tokens of the generated code: names, string literals and single signs. Layout leaves the tokens
of a text as they are. -/

namespace JokerRules.Tokens

universe u

open Text Brackets

/-- A run of letters, digits and underscores, a string literal with its quotes, or any other
character that is not blank. -/
abbrev Token := List Char

/-- Whether a character and the next one belong to one token. -/
def goesOn (mode : Mode) (c : Char) (next : Option Char) : Bool :=
  nextMode mode (classOf c) != .code || (mode == .code && isNameChar c && next.any isNameChar)

def tokensFrom (mode : Mode) : List Char → List Token
  | [] => []
  | c :: cs =>
    let rest := tokensFrom (nextMode mode (classOf c)) cs
    if goesOn mode c cs.head? then extendFirst c rest
    else if mode = .code ∧ isBlank c then rest
    else [c] :: rest

def tokens (text : String) : List Token :=
  tokensFrom .code text.toList

example : tokens "if context.other_card:is_suit(\"a \\\" b\") then" =
    ["if", "context", ".", "other_card", ":", "is_suit", "(", "\"a \\\" b\"", ")", "then"].map
      String.toList := by
  decide

def modeAfter (mode : Mode) (cs : List Char) : Mode :=
  cs.foldl (fun mode c => nextMode mode (classOf c)) mode

theorem modeAfter_append (mode : Mode) (xs ys : List Char) :
    modeAfter mode (xs ++ ys) = modeAfter (modeAfter mode xs) ys :=
  List.foldl_append

/-- All literals of the text end in it. -/
def Complete (text : String) : Prop :=
  modeAfter .code text.toList = .code

theorem mode_of_scan {s t : Scan} {cs : List Char} (h : scan s cs = some t) :
    modeAfter s.mode cs = t.mode := by
  induction cs generalizing s with
  | nil =>
    cases h
    rfl
  | cons c cs ih =>
    obtain ⟨u, hu, h⟩ := Option.bind_eq_some_iff.mp h
    rw [modeAfter, List.foldl_cons, ← mode_of_step hu]
    exact ih h

theorem complete_of_neutral {text : String} (h : Neutral text) : Complete text :=
  mode_of_scan (h.scan [])

theorem Complete.append {a b : String} (ha : Complete a) (hb : Complete b) : Complete (a ++ b) := by
  rw [Complete, String.toList_append, modeAfter_append, ha]
  exact hb

theorem tokensFrom_ne_nil {mode : Mode} {c d : Char} {cs : List Char}
    (h : goesOn mode c (some d) = true) : tokensFrom (nextMode mode (classOf c)) (d :: cs) ≠ [] := by
  rw [tokensFrom]
  split
  · cases tokensFrom (nextMode (nextMode mode (classOf c)) (classOf d)) cs <;> exact List.cons_ne_nil _ _
  · split
    · next hblank =>
      exfalso
      have hname : isNameChar d = false := by
        rw [Bool.eq_false_iff]
        intro hname
        rw [isBlank_of_isNameChar hname] at hblank
        exact absurd hblank.2 (by decide)
      simp [goesOn, hblank.1, hname] at h
    · exact List.cons_ne_nil _ _

theorem extendFirst_append {c : Char} {ts : List Token} (h : ts ≠ []) (us : List Token) :
    extendFirst c (ts ++ us) = extendFirst c ts ++ us := by
  cases ts with
  | nil => exact absurd rfl h
  | cons t ts => rfl

/-- Outside literals, a text can be cut wherever not both neighbours belong to names. -/
theorem tokensFrom_append {mode : Mode} {xs ys : List Char} (hmode : modeAfter mode xs = .code)
    (hcut : xs.getLast?.any isNameChar = false ∨ ys.head?.any isNameChar = false) :
    tokensFrom mode (xs ++ ys) = tokensFrom mode xs ++ tokensFrom .code ys := by
  induction xs generalizing mode with
  | nil =>
    rw [show mode = .code from hmode]
    rfl
  | cons c xs ih =>
    have hnext : modeAfter (nextMode mode (classOf c)) xs = .code := hmode
    cases xs with
    | nil =>
      have hnext : nextMode mode (classOf c) = .code := hmode
      have hstop : ∀ next : Option Char, isNameChar c = false ∨ next.any isNameChar = false →
          goesOn mode c next = false := by
        rintro next (h | h) <;> simp [goesOn, hnext, h]
      rw [List.cons_append, List.nil_append, tokensFrom, tokensFrom, hnext,
        hstop ys.head? (by simpa using hcut), List.head?_nil, hstop none (.inr rfl), tokensFrom]
      simp only [Bool.false_eq_true, if_false]
      split <;> rfl
    | cons d xs =>
      have hrest := ih hnext (by simpa using hcut)
      rw [List.cons_append, tokensFrom, hrest, tokensFrom.eq_2 mode c (d :: xs), List.cons_append,
        List.head?_cons, List.head?_cons]
      split
      · next hgoes => exact extendFirst_append (tokensFrom_ne_nil hgoes) _
      · split <;> rfl

theorem tokens_append {a b : String} (ha : Complete a)
    (hcut : a.toList.getLast?.any isNameChar = false ∨ b.toList.head?.any isNameChar = false) :
    tokens (a ++ b) = tokens a ++ tokens b := by
  rw [tokens, String.toList_append, tokensFrom_append ha hcut, tokens, tokens]

theorem isNameChar_of_isBlank {c : Char} (h : isBlank c = true) : isNameChar c = false := by
  rw [Bool.eq_false_iff]
  intro hname
  rw [isBlank_of_isNameChar hname] at h
  cases h

theorem isNameChar_of_standsAlone {c : Char} (h : standsAlone c = true) : isNameChar c = false := by
  rw [Bool.eq_false_iff, ne_eq, isNameChar_iff]
  intro hname
  obtain ⟨-, hseparator⟩ := solid_char (c := c) (by simp; omega)
  rw [isSeparator, h, Bool.or_true] at hseparator
  cases hseparator

theorem tokensFrom_blank {c : Char} (h : isBlank c = true) (cs : List Char) :
    tokensFrom .code (c :: cs) = tokensFrom .code cs := by
  have hmode : nextMode .code (classOf c) = .code := nextMode_separator (by simp [isSeparator, h])
  simp [tokensFrom, goesOn, hmode, isNameChar_of_isBlank h, h]

theorem flatMap_finished (run : List Char) :
    (finished run).flatMap (tokensFrom .code) = tokensFrom .code run := by
  unfold finished
  split
  · next hempty => rw [List.isEmpty_iff.mp hempty]; rfl
  · simp

/-- Tokens do not reach across lexemes. -/
theorem flatMap_lexemesFrom {mode : Mode} {run : List Char} (hrun : modeAfter .code run = mode)
    (cs : List Char) :
    (lexemesFrom mode run cs).flatMap (tokensFrom .code) = tokensFrom .code (run ++ cs) := by
  induction cs generalizing mode run with
  | nil => rw [lexemesFrom, flatMap_finished, List.append_nil]
  | cons c cs ih =>
    by_cases hseparator : mode = .code ∧ isSeparator c = true
    · obtain ⟨rfl, hc⟩ := hseparator
      have hcode : modeAfter .code [c] = .code := nextMode_separator hc
      have hrest := @ih .code [] rfl
      have hcons : (lexemesFrom .code [] (c :: cs)).flatMap (tokensFrom .code) =
          tokensFrom .code (c :: cs) := by
        by_cases hblank : isBlank c = true
        · rw [lexemesFrom_blank hblank, tokensFrom_blank hblank]
          exact hrest
        · have halone := standsAlone_of_not_isBlank hc hblank
          rw [lexemesFrom_sign hblank halone, ← List.singleton_append (x := c) (l := cs),
            tokensFrom_append hcode (.inl (by simpa using isNameChar_of_standsAlone halone))]
          simpa [finished] using hrest
      have hname : isNameChar c = false := by
        rcases Bool.or_eq_true_iff.mp hc with h | h
        · exact isNameChar_of_isBlank h
        · exact isNameChar_of_standsAlone h
      rw [lexemesFrom_separator hc, List.flatMap_append, hcons, flatMap_finished,
        tokensFrom_append hrun (.inr (by simpa using hname))]
    · rw [lexemesFrom_inside hseparator, ih (by rw [modeAfter_append, hrun]; rfl), List.append_assoc,
        List.singleton_append]

theorem tokens_eq_flatMap (text : String) : tokens text = (lexemes text).flatMap (tokensFrom .code) :=
  (@flatMap_lexemesFrom .code [] rfl text.toList).symm

theorem tokens_indent (depth : Nat) {text : String} (h : Neutral text) :
    tokens (indent depth text) = tokens text := by
  rw [tokens_eq_flatMap, lexemes_indent depth h, tokens_eq_flatMap]

theorem tokens_cons_feed (text : String) : tokens ("\n" ++ text) = tokens text := by
  rw [tokens, String.toList_append]
  exact tokensFrom_blank (by decide) text.toList

theorem tokens_lines {a b : String} (ha : Complete a) :
    tokens (a ++ "\n" ++ b) = tokens a ++ tokens b := by
  have hcut : ("\n" ++ b).toList.head?.any isNameChar = false := by
    rw [String.toList_append]
    rfl
  rw [String.append_assoc, tokens_append ha (.inr hcut), tokens_cons_feed]

theorem complete_lines {a b : String} (ha : Complete a) (hb : Complete b) :
    Complete (a ++ "\n" ++ b) := by
  have hfeed : Complete "\n" := rfl
  exact (ha.append hfeed).append hb

theorem tokens_unlines {texts : List String} (h : ∀ t ∈ texts, Complete t) :
    Complete (unlines texts) ∧ tokens (unlines texts) = texts.flatMap tokens := by
  induction texts with
  | nil => exact ⟨rfl, rfl⟩
  | cons t texts ih =>
    obtain ⟨ht, htexts⟩ := List.forall_mem_cons.mp h
    cases texts with
    | nil => simpa [unlines] using ht
    | cons u texts =>
      obtain ⟨hcomplete, htokens⟩ := ih htexts
      rw [unlines, String.intercalate_cons_cons, List.flatMap_cons, ← htokens]
      exact ⟨complete_lines ht hcomplete, tokens_lines ht⟩

end JokerRules.Tokens
