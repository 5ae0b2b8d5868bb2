import JokerRules.Proofs.Brackets.Layout

/-! Code up to its layout. A lexeme is a bracket, a comma, or a run of other characters in which
blanks stand only inside string literals. Indentation and line ends leave the lexemes of a neutral
text as they are, and the lexemes of a table or of a function are those of its parts between its own
signs. -/

namespace JokerRules.Brackets

open Text

abbrev Lexeme := List Char

def standsAlone (c : Char) : Bool :=
  match classOf c with
  | .opening _ | .closing _ => true
  | _ => c == ','

def nextMode : Mode → CharClass → Mode
  | .code, .quote d => .literal d
  | .code, _ => .code
  | .literal d, .quote e => if d = e then .code else .literal d
  | .literal d, .backslash => .escape d
  | .literal d, _ => .literal d
  | .escape d, _ => .literal d

/-- The lexeme of the characters that have been read since the last one, if there are any. -/
def finished (run : List Char) : List Lexeme :=
  if run.isEmpty then [] else [run]

/-- The lexemes of a text in which the characters of `run` have been read last. -/
def lexemesFrom (mode : Mode) (run : List Char) : List Char → List Lexeme
  | [] => finished run
  | c :: cs =>
    if mode = .code ∧ isBlank c then finished run ++ lexemesFrom .code [] cs
    else if mode = .code ∧ standsAlone c then finished run ++ [c] :: lexemesFrom .code [] cs
    else lexemesFrom (nextMode mode (classOf c)) (run ++ [c]) cs

def lexemes (text : String) : List Lexeme :=
  lexemesFrom .code [] text.toList

example : lexemes "mult = f(a,\n  \"b ,\\\" c\")" =
    ["mult", "=", "f", "(", "a", ",", "\"b ,\\\" c\"", ")"].map String.toList := by
  decide

def isSeparator (c : Char) : Bool :=
  isBlank c || standsAlone c

theorem mode_of_step {s t : Scan} {k : CharClass} (h : step s k = some t) :
    t.mode = nextMode s.mode k := by
  obtain ⟨mode, bs⟩ := s
  cases mode with
  | code =>
    cases k with
    | closing b =>
      obtain ⟨rest, -, rfl⟩ := Option.map_eq_some_iff.mp h
      rfl
    | _ => cases h; rfl
  | literal d => cases k <;> cases h <;> rfl
  | escape d => cases k <;> cases h <;> rfl

theorem nextMode_separator {c : Char} (h : isSeparator c = true) :
    nextMode .code (classOf c) = .code := by
  rcases Bool.or_eq_true_iff.mp h with hblank | halone
  · exact (mode_of_step (step_blank hblank [])).symm
  · unfold standsAlone at halone
    split at halone
    · next hc => rw [hc]; rfl
    · next hc => rw [hc]; rfl
    · obtain rfl := beq_iff_eq.mp halone
      decide

theorem lexemesFrom_blank {c : Char} (h : isBlank c = true) (run cs : List Char) :
    lexemesFrom .code run (c :: cs) = finished run ++ lexemesFrom .code [] cs := by
  simp [lexemesFrom, h]

theorem lexemesFrom_sign {c : Char} (hblank : ¬isBlank c = true) (halone : standsAlone c = true)
    (run cs : List Char) :
    lexemesFrom .code run (c :: cs) = finished run ++ [c] :: lexemesFrom .code [] cs := by
  simp [lexemesFrom, hblank, halone]

theorem lexemesFrom_inside {mode : Mode} {c : Char} (h : ¬(mode = .code ∧ isSeparator c = true))
    (run cs : List Char) :
    lexemesFrom mode run (c :: cs) = lexemesFrom (nextMode mode (classOf c)) (run ++ [c]) cs := by
  have hblank : ¬(mode = .code ∧ isBlank c = true) := fun hc => h ⟨hc.1, by simp [isSeparator, hc.2]⟩
  have halone : ¬(mode = .code ∧ standsAlone c = true) :=
    fun hc => h ⟨hc.1, by simp [isSeparator, hc.2]⟩
  rw [lexemesFrom, if_neg hblank, if_neg halone]

theorem standsAlone_of_not_isBlank {c : Char} (h : isSeparator c = true) (hblank : ¬isBlank c = true) :
    standsAlone c = true := by
  simpa [isSeparator, hblank] using h

theorem lexemesFrom_separator {c : Char} (h : isSeparator c = true) (run cs : List Char) :
    lexemesFrom .code run (c :: cs) = finished run ++ lexemesFrom .code [] (c :: cs) := by
  by_cases hblank : isBlank c = true
  · simp [lexemesFrom_blank hblank, finished]
  · simp [lexemesFrom_sign hblank (standsAlone_of_not_isBlank h hblank), finished]

/-- A character finishes some lexemes and leaves a run behind, whatever comes after it. -/
theorem exists_lexemesFrom_cons {s t : Scan} {c : Char} (h : step s (classOf c) = some t)
    (run : List Char) :
    ∃ done rest, ∀ cs, lexemesFrom s.mode run (c :: cs) = done ++ lexemesFrom t.mode rest cs := by
  have hmode := mode_of_step h
  by_cases hseparator : s.mode = .code ∧ isSeparator c = true
  · obtain ⟨hs, hc⟩ := hseparator
    rw [hmode, hs, nextMode_separator hc]
    by_cases hblank : isBlank c = true
    · exact ⟨finished run, [], lexemesFrom_blank hblank run⟩
    · refine ⟨finished run ++ [[c]], [], fun cs => ?_⟩
      rw [lexemesFrom_sign hblank (standsAlone_of_not_isBlank hc hblank), List.append_assoc,
        List.singleton_append]
  · exact ⟨[], run ++ [c], fun cs => by rw [lexemesFrom_inside hseparator, hmode, List.nil_append]⟩

/-- Before the end of the text or a separator, code outside literals can be cut off. -/
theorem lexemesFrom_append {s : Scan} {bs : List Bracket} {xs ys : List Char} (run : List Char)
    (h : scan s xs = some ⟨.code, bs⟩) (hys : ∀ c ∈ ys.head?, isSeparator c = true) :
    lexemesFrom s.mode run (xs ++ ys) = lexemesFrom s.mode run xs ++ lexemesFrom .code [] ys := by
  induction xs generalizing s run with
  | nil =>
    cases h
    cases ys with
    | nil => simp [lexemesFrom, finished]
    | cons c ys => exact lexemesFrom_separator (hys c (by simp)) run ys
  | cons c xs ih =>
    obtain ⟨t, ht, h⟩ := Option.bind_eq_some_iff.mp h
    obtain ⟨done, rest, hcons⟩ := exists_lexemesFrom_cons ht run
    rw [List.cons_append, hcons, hcons, ih rest h, List.append_assoc]

theorem lexemes_append {a : String} (ha : Neutral a) {b : String}
    (hb : ∀ c ∈ b.toList.head?, isSeparator c = true) :
    lexemes (a ++ b) = lexemes a ++ lexemes b := by
  rw [lexemes, String.toList_append]
  exact lexemesFrom_append [] (ha.scan []) hb

theorem lexemesFrom_blanks {cs : List Char} (h : ∀ c ∈ cs, isBlank c = true) (ys : List Char) :
    lexemesFrom .code [] (cs ++ ys) = lexemesFrom .code [] ys := by
  induction cs with
  | nil => rfl
  | cons c cs ih =>
    rw [List.cons_append, lexemesFrom_blank (h c (by simp))]
    exact ih (fun d hd => h d (by simp [hd]))

theorem lexemesFrom_indentLine (depth : Nat) (line ys : List Char) :
    lexemesFrom .code [] (indentLine depth line ++ ys) = lexemesFrom .code [] (line ++ ys) := by
  unfold indentLine
  split
  · next h => rw [lexemesFrom_blanks (List.all_eq_true.mp h), List.nil_append]
  · rw [List.append_assoc, lexemesFrom_blanks]
    intro c hc
    rw [List.eq_of_mem_replicate hc]
    rfl

/-- Every line of a text is read from outside literals, so its indentation is skipped. -/
theorem lexemesFrom_indentLines (depth : Nat) {ls : List (List Char)} {bs cs : List Bracket}
    (h : scan ⟨.code, bs⟩ (['\n'].intercalate ls) = some ⟨.code, cs⟩) :
    lexemesFrom .code [] (['\n'].intercalate (ls.map (indentLine depth))) =
      lexemesFrom .code [] (['\n'].intercalate ls) := by
  induction ls generalizing bs with
  | nil => rfl
  | cons l ls ih =>
    cases ls with
    | nil => simpa using lexemesFrom_indentLine depth l []
    | cons m ls =>
      rw [List.intercalate_cons_cons, List.append_assoc, List.singleton_append, scan_append] at h
      obtain ⟨t, hl, h⟩ := Option.bind_eq_some_iff.mp h
      obtain ⟨hcode, hrest⟩ := (scan_lineEnd_cons rfl t _ _).mp h
      obtain ⟨mode, ds⟩ := t
      obtain rfl : mode = .code := hcode
      have hcut : ∀ ys, lexemesFrom .code [] (l ++ '\n' :: ys) =
          lexemesFrom .code [] l ++ lexemesFrom .code [] ys := by
        intro ys
        rw [lexemesFrom_append (s := ⟨.code, bs⟩) [] hl (by simp; decide),
          lexemesFrom_blank (by decide)]
        rfl
      have hls := ih hrest
      rw [List.map_cons] at hls
      simp only [List.map_cons, List.intercalate_cons_cons, List.append_assoc,
        List.singleton_append]
      rw [lexemesFrom_indentLine, hcut, hcut, hls]

theorem lexemesFrom_emptyLine (run : List Char) (ls : List (List Char)) :
    lexemesFrom .code run (['\n'].intercalate ([] :: ls)) =
      finished run ++ lexemesFrom .code [] (['\n'].intercalate ls) := by
  cases ls with
  | nil => simp [lexemesFrom, finished]
  | cons l ls =>
    rw [List.intercalate_cons_cons, List.nil_append, List.singleton_append,
      lexemesFrom_blank (by decide)]

/-- Cutting a text into lines and joining them again keeps its lexemes. -/
theorem lexemesFrom_lines {s : Scan} {cs : List Char} {bs : List Bracket} (run : List Char)
    (h : scan s cs = some ⟨.code, bs⟩) :
    lexemesFrom s.mode run (['\n'].intercalate (lines cs)) = lexemesFrom s.mode run cs := by
  fun_induction lines cs generalizing s run with
  | case1 => rfl
  | case2 cs ih =>
    obtain ⟨hcode, h⟩ := (scan_lineEnd_cons rfl s _ _).mp h
    have hrest := ih [] h
    rw [hcode] at hrest ⊢
    rw [lexemesFrom_emptyLine, hrest, lexemesFrom_blank (by decide)]
  | case3 cs ih =>
    obtain ⟨hcode, h⟩ := (scan_lineEnd_cons rfl s _ _).mp h
    obtain ⟨-, h⟩ := (scan_lineEnd_cons rfl s _ _).mp h
    have hrest := ih [] h
    rw [hcode] at hrest ⊢
    rw [lexemesFrom_emptyLine, hrest, lexemesFrom_blank (by decide), lexemesFrom_blank (by decide)]
    rfl
  | case4 c cs _ _ ih =>
    have hjoin : ['\n'].intercalate (extendFirst c (lines cs)) =
        c :: ['\n'].intercalate (lines cs) := by
      cases lines cs <;> simp [extendFirst]
    obtain ⟨t, ht, h⟩ := Option.bind_eq_some_iff.mp h
    obtain ⟨done, rest, hcons⟩ := exists_lexemesFrom_cons ht run
    rw [hjoin, hcons, hcons, ih rest h]

theorem lexemes_indent (depth : Nat) {text : String} (h : Neutral text) :
    lexemes (indent depth text) = lexemes text := by
  have htext : (indent depth text).toList =
      ['\n'].intercalate ((lines text.toList).map (indentLine depth)) := by
    simp [indent, unlines, String.toList_intercalate, Function.comp_def]
  have hlines := (scan_lines ⟨.code, []⟩ text.toList []).mpr (h.scan [])
  rw [lexemes, htext, lexemesFrom_indentLines depth hlines]
  exact lexemesFrom_lines [] (h.scan [])

/-- A joint that begins with a separator puts the same lexemes between all texts. -/
theorem lexemes_intercalate {joint : String} (signs : List Lexeme)
    (hfirst : ∃ c ∈ joint.toList.head?, isSeparator c = true)
    (hjoint : ∀ text, lexemes (joint ++ text) = signs ++ lexemes text) {texts : List String}
    (h : ∀ t ∈ texts, Neutral t) :
    lexemes (joint.intercalate texts) = signs.intercalate (texts.map lexemes) := by
  obtain ⟨c, hc, hseparator⟩ := hfirst
  induction texts with
  | nil => rfl
  | cons t texts ih =>
    obtain ⟨ht, htexts⟩ := List.forall_mem_cons.mp h
    cases texts with
    | nil => simp
    | cons u texts =>
      have hhead : ∀ d ∈ (joint ++ joint.intercalate (u :: texts)).toList.head?,
          isSeparator d = true := by
        simp [List.head?_append, Option.mem_def.mp hc, hseparator]
      rw [String.intercalate_cons_cons, String.append_assoc, lexemes_append ht hhead, hjoint,
        ih htexts]
      simp [List.intercalate_cons_cons]

theorem lexemes_enclosed (first : String) {body : String} {bs : List Bracket}
    (hfirst : scan ⟨.code, []⟩ first.toList = some ⟨.code, bs⟩) (hbody : Neutral body)
    (last : String) :
    lexemes (first ++ "\n" ++ body ++ ("\n" ++ last)) =
      lexemes first ++ lexemes body ++ lexemes last := by
  have hline : ∀ {a : String} {cs : List Bracket} (b : String),
      scan ⟨.code, []⟩ a.toList = some ⟨.code, cs⟩ →
        lexemes (a ++ ("\n" ++ b)) = lexemes a ++ lexemes b := by
    intro a cs b ha
    have hfeed : lexemes ("\n" ++ b) = lexemes b := by
      rw [lexemes, String.toList_append]
      exact lexemesFrom_blank (by decide) [] b.toList
    rw [← hfeed, lexemes, String.toList_append]
    exact lexemesFrom_append [] ha (by simp; decide)
  rw [String.append_assoc, String.append_assoc, hline _ hfirst, hline _ (hbody.scan []),
    List.append_assoc]

theorem lexemes_unlines {texts : List String} (h : ∀ t ∈ texts, Neutral t) :
    lexemes (unlines texts) = texts.flatMap lexemes := by
  have hfeed : ∀ text, lexemes ("\n" ++ text) = [] ++ lexemes text := by
    intro text
    rw [lexemes, String.toList_append]
    exact lexemesFrom_blank (by decide) [] text.toList
  have hjoin : ∀ parts : List (List Lexeme), [].intercalate parts = parts.flatten := by
    intro parts
    induction parts with
    | nil => rfl
    | cons part parts ih =>
      cases parts with
      | nil => simp
      | cons next parts =>
        rw [List.intercalate_cons_cons, ih, List.append_nil, List.flatten_cons (l := part)]
  rw [unlines, lexemes_intercalate [] ⟨'\n', rfl, by decide⟩ hfeed h, hjoin]
  rfl

def tableLexemes (entries : List (List Lexeme)) : List Lexeme :=
  [['\x7b']] ++ [[',']].intercalate entries ++ [['\x7d']]

theorem lexemes_table {entries : List String} (h : ∀ t ∈ entries, Neutral t) :
    lexemes (table entries) = tableLexemes (entries.map lexemes) := by
  have hcomma : ∀ text, lexemes (",\n" ++ text) = [[',']] ++ lexemes text := by
    intro text
    rw [lexemes, String.toList_append]
    rfl
  have hindented : ∀ t ∈ entries.map (indent 1), Neutral t := by
    simp only [List.mem_map, forall_exists_index, and_imp, forall_apply_eq_imp_iff₂]
    exact fun t ht => (h t ht).indent 1
  have hlexemes : (entries.map (indent 1)).map lexemes = entries.map lexemes := by
    rw [List.map_map]
    exact List.map_congr_left fun t ht => lexemes_indent 1 (h t ht)
  have hbody := lexemes_intercalate [[',']] ⟨',', rfl, by decide⟩ hcomma hindented
  rw [hlexemes] at hbody
  unfold table
  split
  · next hempty => rw [List.isEmpty_iff.mp hempty]; decide
  · have hneutral : Neutral (",\n".intercalate (entries.map (indent 1))) :=
      neutral_intercalate (neutral_fixed rfl) hindented
    have hopen : "\x7b\n" = "\x7b" ++ "\n" := by decide
    have hclose : "\n\x7d" = "\n" ++ "\x7d" := by decide
    have hsigns : lexemes "\x7b" = [['\x7b']] ∧ lexemes "\x7d" = [['\x7d']] := by decide
    rw [hopen, hclose, lexemes_enclosed "\x7b" rfl hneutral, hbody, hsigns.1, hsigns.2, tableLexemes]

theorem lexemes_closure {body : String} (h : Neutral body) :
    lexemes (closure body) =
      lexemes "function()" ++ lexemes body ++ lexemes "return true end" := by
  have hopen : "function()\n" = "function()" ++ "\n" := by decide
  have hclose : "\n    return true\nend" = "\n" ++ "    return true\nend" := by decide
  have hend : lexemes "    return true\nend" = lexemes "return true end" := by decide
  rw [Text.closure, hopen, hclose, lexemes_enclosed "function()" rfl (h.indent 1), lexemes_indent 1 h,
    hend]

end JokerRules.Brackets
