import JokerRules.Proofs.Brackets.Layout
import JokerRules.Proofs.SharedOverrides

/-! String literals as the game reads them. A quoted text reads back as itself whatever follows it,
and a table of quoted texts reads back as these texts however far its lines are moved in: no literal
reaches over a line end, so that only blanks between the literals change. -/

namespace JokerRules.Quoted

open Text Brackets

/-- The character that is meant by one after a backslash. -/
def unescape? (c : Char) : Option Char :=
  if c = 'n' then some '\n'
  else if c = 'r' then some '\r'
  else if c = 't' then some '\t'
  else if c = '\\' ∨ c = '"' ∨ c = '\'' then some c
  else none

/-- The characters of a literal up to its delimiter, and what comes after it. -/
def readBody? (delimiter : Char) : List Char → Option (List Char × List Char)
  | [] => none
  | '\\' :: c :: cs =>
    (unescape? c).bind fun meant => (readBody? delimiter cs).map fun r => (meant :: r.1, r.2)
  | c :: cs =>
    if c = delimiter then some ([], cs)
    else if c = '\n' ∨ c = '\r' then none
    else (readBody? delimiter cs).map fun r => (c :: r.1, r.2)

def readLiteral? : List Char → Option (String × List Char)
  | [] => none
  | c :: cs =>
    if c = '"' ∨ c = '\'' then (readBody? c cs).map fun r => (String.ofList r.1, r.2) else none

theorem length_readBody? {delimiter : Char} {cs : List Char} {r : List Char × List Char}
    (h : readBody? delimiter cs = some r) : r.2.length < cs.length := by
  fun_induction readBody? delimiter cs generalizing r with
  | case1 => cases h
  | case2 c cs ih =>
    obtain ⟨meant, -, h⟩ := Option.bind_eq_some_iff.mp h
    obtain ⟨r', hr', rfl⟩ := Option.map_eq_some_iff.mp h
    have := ih hr'
    simp only [List.length_cons]
    omega
  | case3 cs _ =>
    cases h
    simp
  | case4 => cases h
  | case5 c cs _ _ _ ih =>
    obtain ⟨r', hr', rfl⟩ := Option.map_eq_some_iff.mp h
    have := ih hr'
    simp only [List.length_cons]
    omega

theorem length_readLiteral? {cs : List Char} {r : String × List Char} (h : readLiteral? cs = some r) :
    r.2.length < cs.length := by
  cases cs with
  | nil => cases h
  | cons c cs =>
    rw [readLiteral?] at h
    split at h
    · obtain ⟨r', hr', rfl⟩ := Option.map_eq_some_iff.mp h
      exact (length_readBody? hr').trans (Nat.lt_succ_self _)
    · cases h

/-- The literal of a text between the given delimiters. -/
def literal : Delimiter → String → String
  | .double => quote
  | .single => singleQuoted

theorem literal_eq (d : Delimiter) (s : String) : literal d s = quoteWith d.char s := by
  cases d <;> rfl

theorem readBody?_escapeChar (d : Delimiter) (c : Char) (cs : List Char) :
    readBody? d.char (escapeChar d.char c ++ cs) =
      (readBody? d.char cs).map fun r => (c :: r.1, r.2) := by
  unfold escapeChar
  split
  · next h => simp [h, readBody?, unescape?]
  split
  · next h => simp [h, readBody?, unescape?]
  split
  · next h => simp [h, readBody?, unescape?]
  split
  · next h => simp [h, readBody?, unescape?]
  split
  · next h => cases d <;> simp [h, readBody?, unescape?, Delimiter.char]
  · next hback hfeed hreturn _ hdelimiter =>
    simp [readBody?, hback, hfeed, hreturn, hdelimiter]

theorem readBody?_escaped (d : Delimiter) (s rest : List Char) :
    readBody? d.char (s.flatMap (escapeChar d.char) ++ d.char :: rest) = some (s, rest) := by
  induction s with
  | nil => cases d <;> rfl
  | cons c s ih => rw [List.flatMap_cons, List.append_assoc, readBody?_escapeChar, ih, Option.map_some]

theorem literal_append (d : Delimiter) (s : String) (rest : List Char) :
    (literal d s).toList ++ rest =
      d.char :: (s.toList.flatMap (escapeChar d.char) ++ d.char :: rest) := by
  simp [literal_eq, quoteWith]

theorem readLiteral?_literal (d : Delimiter) (s : String) (rest : List Char) :
    readLiteral? ((literal d s).toList ++ rest) = some (s, rest) := by
  have hdelimiter : d.char = '"' ∨ d.char = '\'' := by
    cases d
    · exact .inl rfl
    · exact .inr rfl
  rw [literal_append, readLiteral?, if_pos hdelimiter, readBody?_escaped, Option.map_some,
    String.ofList_toList]

/-- The text has something on it and does not reach over a line end. -/
structure IsRow (text : String) : Prop where
  feedless : '\n' ∉ text.toList
  returnless : '\r' ∉ text.toList
  inked : ∃ c ∈ text.toList, isBlank c = false

theorem isRow_literal (d : Delimiter) (s : String) : IsRow (literal d s) := by
  rw [literal_eq]
  refine ⟨not_mem_quoteWith (.inl rfl) ?_ s, not_mem_quoteWith (.inr rfl) ?_ s, d.char, ?_, ?_⟩
  · cases d <;> decide
  · cases d <;> decide
  · simp [quoteWith]
  · cases d <;> decide

theorem IsRow.append {a b : String} (ha : IsRow a) (hb : IsRow b) : IsRow (a ++ b) := by
  obtain ⟨c, hc, hsolid⟩ := ha.inked
  refine ⟨?_, ?_, c, by simp [hc], hsolid⟩
  · simpa using ⟨ha.feedless, hb.feedless⟩
  · simpa using ⟨ha.returnless, hb.returnless⟩

theorem lines_of_feedless {cs : List Char} (hne : cs ≠ []) (h : '\n' ∉ cs) : lines cs = [cs] := by
  induction cs with
  | nil => exact absurd rfl hne
  | cons c cs ih =>
    obtain ⟨hc, hcs⟩ := not_or.mp (mt List.mem_cons.mpr h)
    have hstep : lines (c :: cs) = extendFirst c (lines cs) := by
      refine lines.eq_4 c cs (Ne.symm hc) ?_
      rintro ds - rfl
      exact hcs List.mem_cons_self
    rw [hstep]
    by_cases hnil : cs = []
    · rw [hnil]
      rfl
    · rw [ih hnil hcs]
      rfl

theorem IsRow.indent_eq {text : String} (h : IsRow text) (depth : Nat) :
    indent depth text = String.ofList (padding depth) ++ text := by
  obtain ⟨c, hc, hsolid⟩ := h.inked
  have hlines : lines text.toList = [text.toList] :=
    lines_of_feedless (List.ne_nil_of_mem hc) h.feedless
  have hline : indentLine depth text.toList = padding depth ++ text.toList := by
    rw [indentLine, if_neg]
    intro hblank
    rw [List.all_eq_true.mp hblank c hc] at hsolid
    cases hsolid
  apply String.toList_inj.mp
  simp [indent, unlines, hlines, hline]

theorem IsRow.indent {text : String} (h : IsRow text) (depth : Nat) :
    IsRow (Text.indent depth text) := by
  have hpadding : ∀ c ∈ padding depth, c = ' ' := fun c hc => List.eq_of_mem_replicate hc
  obtain ⟨c, hc, hsolid⟩ := h.inked
  rw [h.indent_eq]
  refine ⟨?_, ?_, c, by simp [hc], hsolid⟩
  · simpa using ⟨fun hmem => absurd (hpadding _ hmem) (by decide), h.feedless⟩
  · simpa using ⟨fun hmem => absurd (hpadding _ hmem) (by decide), h.returnless⟩

theorem IsRow.endsInside {text : String} (h : IsRow text) : EndsInside text := by
  obtain ⟨c, hc, -⟩ := h.inked
  obtain ⟨front, last, htext⟩ := List.eq_nil_or_concat' text.toList
    |>.resolve_left (List.ne_nil_of_mem hc)
  have hlast : last ∈ text.toList := by simp [htext]
  exact ⟨front, last, htext, ne_of_mem_of_not_mem hlast h.feedless,
    ne_of_mem_of_not_mem hlast h.returnless⟩

inductive Token
  | sign (c : Char)
  | text (s : String)
deriving DecidableEq

def isSpace (c : Char) : Bool :=
  c = ' ' || 9 ≤ c.toNat && c.toNat ≤ 13

def isSign (c : Char) : Bool :=
  c = '\x7b' || c = ',' || c = '\x7d'

/-- The tokens of a table of literals. -/
def lex? (cs : List Char) : Option (List Token) :=
  match cs with
  | [] => some []
  | c :: cs =>
    if isSpace c then lex? cs
    else if isSign c then (lex? cs).map (.sign c :: ·)
    else match _h : readLiteral? (c :: cs) with
      | none => none
      | some (s, rest) => (lex? rest).map (.text s :: ·)
termination_by cs.length
decreasing_by
  · exact Nat.lt_succ_self _
  · exact Nat.lt_succ_self _
  · exact length_readLiteral? _h

/-- The text has these tokens whatever follows it. -/
def Lexes (text : String) (ts : List Token) : Prop :=
  ∀ rest, lex? (text.toList ++ rest) = (lex? rest).map (ts ++ ·)

theorem Lexes.append {a b : String} {ts us : List Token} (ha : Lexes a ts) (hb : Lexes b us) :
    Lexes (a ++ b) (ts ++ us) := by
  intro rest
  rw [String.toList_append, List.append_assoc, ha, hb, Option.map_map]
  simp [Function.comp_def]

theorem Lexes.lex {text : String} {ts : List Token} (h : Lexes text ts) :
    lex? text.toList = some ts := by
  have hwhole := h []
  rwa [List.append_nil, lex?, Option.map_some, List.append_nil] at hwhole

theorem lexes_spaces {cs : List Char} (h : ∀ c ∈ cs, isSpace c = true) :
    Lexes (String.ofList cs) [] := by
  intro rest
  rw [String.toList_ofList]
  induction cs with
  | nil => simp
  | cons c cs ih =>
    obtain ⟨hc, hcs⟩ := List.forall_mem_cons.mp h
    rw [List.cons_append, lex?, if_pos hc, ih hcs]

theorem lexes_sign {c : Char} (hc : isSign c = true) : Lexes (String.ofList [c]) [.sign c] := by
  have hspace : isSpace c = false := by
    simp only [isSign, Bool.or_eq_true, decide_eq_true_eq] at hc
    rcases hc with (rfl | rfl) | rfl <;> decide
  intro rest
  rw [String.toList_ofList, List.singleton_append, lex?, hspace, if_neg Bool.false_ne_true, if_pos hc]
  rfl

theorem lexes_literal (d : Delimiter) (s : String) : Lexes (literal d s) [.text s] := by
  intro rest
  have hread := readLiteral?_literal d s rest
  have hspace : isSpace d.char = false := by cases d <;> decide
  have hsign : isSign d.char = false := by cases d <;> decide
  rw [literal_append] at hread ⊢
  rw [lex?, hspace, if_neg Bool.false_ne_true, hsign, if_neg Bool.false_ne_true]
  split
  · next hnone => rw [hread] at hnone; cases hnone
  · next text more hsome =>
    rw [hread] at hsome
    cases hsome
    rfl

theorem Lexes.indent {text : String} {ts : List Token} (h : Lexes text ts) (hrow : IsRow text)
    (depth : Nat) : Lexes (Text.indent depth text) ts := by
  rw [hrow.indent_eq]
  refine (lexes_spaces fun c hc => ?_).append h
  rw [List.eq_of_mem_replicate hc]
  rfl

/-- The tokens of a text that stands on one line or more, with no token that reaches over a line
end. -/
inductive Laid : String → List Token → Prop
  | last {text : String} {ts : List Token} (hrow : IsRow text) (h : Lexes text ts) : Laid text ts
  | cons {text later : String} {ts us : List Token} (hrow : IsRow text) (h : Lexes text ts)
      (hlater : Laid later us) : Laid (text ++ "\n" ++ later) (ts ++ us)

theorem Laid.lexes {text : String} {ts : List Token} (h : Laid text ts) : Lexes text ts := by
  induction h with
  | last _ h => exact h
  | cons _ h _ ih =>
    have hfeed : Lexes "\n" [] := lexes_spaces (List.forall_mem_singleton.mpr rfl)
    simpa using (h.append hfeed).append ih

theorem Laid.ne_empty {text : String} {ts : List Token} (h : Laid text ts) : text ≠ "" := by
  cases h with
  | last hrow _ => exact hrow.endsInside.ne_empty
  | cons _ _ _ => simp

/-- Moving lines in changes only the blanks in front of them. -/
theorem Laid.indent {text : String} {ts : List Token} (h : Laid text ts) (depth : Nat) :
    Laid (Text.indent depth text) ts := by
  induction h with
  | last hrow h => exact .last (hrow.indent depth) (h.indent hrow depth)
  | cons hrow h hlater ih =>
    rw [indent_append hrow.endsInside hlater.ne_empty]
    exact .cons (hrow.indent depth) (h.indent hrow depth) ih

theorem isRow_sign {c : Char} (h : isSign c = true) : IsRow (String.ofList [c]) := by
  simp only [isSign, Bool.or_eq_true, decide_eq_true_eq] at h
  rcases h with (rfl | rfl) | rfl <;> exact ⟨by decide, by decide, _, List.mem_singleton_self _, rfl⟩

def tableTokens (texts : List String) : List Token :=
  .sign '\x7b' :: ([.sign ','].intercalate (texts.map fun s => [.text s]) ++ [.sign '\x7d'])

theorem laid_entries (e : Delimiter × String) (entries : List (Delimiter × String)) :
    Laid (",\n".intercalate ((e :: entries).map fun e => indent 1 (literal e.1 e.2)) ++ "\n\x7d")
      ([.sign ','].intercalate ((e :: entries).map fun e => [.text e.2]) ++ [.sign '\x7d']) := by
  have hrow : ∀ e : Delimiter × String, IsRow (indent 1 (literal e.1 e.2)) := fun e =>
    (isRow_literal e.1 e.2).indent 1
  have hlexes : ∀ e : Delimiter × String, Lexes (indent 1 (literal e.1 e.2)) [.text e.2] := fun e =>
    (lexes_literal e.1 e.2).indent (isRow_literal e.1 e.2) 1
  induction entries generalizing e with
  | nil =>
    have hclose : Laid (String.ofList ['\x7d']) [.sign '\x7d'] := .last (isRow_sign rfl) (lexes_sign rfl)
    simpa [String.append_assoc] using hclose.cons (hrow e) (hlexes e)
  | cons next entries ih =>
    have hlaid := (ih next).cons ((hrow e).append (isRow_sign (c := ',') rfl))
      ((hlexes e).append (lexes_sign rfl))
    simpa [String.append_assoc] using hlaid

theorem laid_table (entries : List (Delimiter × String)) :
    Laid (table (entries.map fun e => literal e.1 e.2)) (tableTokens (entries.map (·.2))) := by
  have hopen : IsRow (String.ofList ['\x7b']) ∧ Lexes (String.ofList ['\x7b']) [.sign '\x7b'] :=
    ⟨isRow_sign rfl, lexes_sign rfl⟩
  cases entries with
  | nil =>
    have hlaid := Laid.last (hopen.1.append (isRow_sign (c := '\x7d') rfl))
      (hopen.2.append (lexes_sign rfl))
    simpa [table, tableTokens] using hlaid
  | cons e entries =>
    have hlaid := (laid_entries e entries).cons hopen.1 hopen.2
    have htable : table ((e :: entries).map fun e => literal e.1 e.2) =
        String.ofList ['\x7b'] ++ "\n" ++
          (",\n".intercalate ((e :: entries).map fun e => indent 1 (literal e.1 e.2)) ++ "\n\x7d") := by
      simp [table, Function.comp_def, String.append_assoc]
    rw [htable, tableTokens]
    simpa [Function.comp_def] using hlaid

/-- A quoted text reads back as itself, whatever follows it, and holds no line end. So the texts of
a table read back in their order, however often and however far its lines are moved in. -/
theorem quoted_texts_read_back :
    (∀ (d : Delimiter) (s : String),
      (∀ rest, readLiteral? ((literal d s).toList ++ rest) = some (s, rest)) ∧
        '\n' ∉ (literal d s).toList ∧ '\r' ∉ (literal d s).toList) ∧
    ∀ (entries : List (Delimiter × String)) (depths : List Nat),
      lex? (depths.foldr indent (table (entries.map fun e => literal e.1 e.2))).toList =
        some (tableTokens (entries.map (·.2))) := by
  refine ⟨fun d s => ⟨readLiteral?_literal d s, (isRow_literal d s).feedless,
    (isRow_literal d s).returnless⟩, fun entries depths => ?_⟩
  have hlaid : Laid (depths.foldr indent (table (entries.map fun e => literal e.1 e.2)))
      (tableTokens (entries.map (·.2))) := by
    induction depths with
    | nil => exact laid_table entries
    | cons depth depths ih => exact ih.indent depth
  exact hlaid.lexes.lex

end JokerRules.Quoted
