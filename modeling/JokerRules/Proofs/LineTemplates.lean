import JokerRules.Proofs.QuietTexts
import JokerRules.Proofs.Templates

/-! Quiet lines put together from fixed parts, names and other texts. The front of a line shows
whether it is quiet. -/

namespace JokerRules

open Text

/-- What may fill a hole in a line: a name, any text on one line, or one that starts with some
character other than an equals sign. -/
inductive LinePart.Filler (text : String) : Type
  | name (h : Statement.PlainName text)
  | other (h : OneLine text)
  | lead (h : OneLine text) (hhead : ∃ c, c ≠ '=' ∧ text.toList.head? = some c)

abbrev LinePart := Part LinePart.Filler

namespace LinePart

abbrev name (text : String) (h : Statement.PlainName text) : LinePart :=
  Part.hole text (.name h)

abbrev hole (text : String) (h : OneLine text) : LinePart :=
  Part.hole text (.other h)

abbrev lead (text : String) (h : OneLine text) (hhead : ∃ c, c ≠ '=' ∧ text.toList.head? = some c) :
    LinePart :=
  Part.hole text (.lead h hhead)

/-- What follows a name sets its variable, or uses it. -/
def goesOn (cs : List Char) : Bool :=
  Statement.equals.isPrefixOf cs ||
    match cs with
    | c :: d :: _ => !isNameChar c && c != ' ' && !(c == '.' && d == 'a')
    | _ => false

def feedFree : LinePart → Bool
  | Part.fixed cs => !cs.contains '\n'
  | Part.hole _ _ => true

def quietFront : List LinePart → Bool
  | [Part.fixed cs] => Statement.settled (trimStart cs) || !(trimStart cs).contains ' '
  | Part.fixed pad :: Part.hole _ (.name _) :: Part.fixed cs :: _ =>
    (trimStart pad).isEmpty && goesOn cs ||
      trimStart pad == Statement.localStart && Statement.equals.isPrefixOf cs
  | Part.hole _ (.name _) :: Part.fixed cs :: _ => goesOn cs
  | Part.fixed cs :: Part.hole _ (.lead _ _) :: _ =>
    (trimStart cs).dropWhile isNameChar == [' '] &&
      (trimStart cs).takeWhile isNameChar != "local".toList
  | Part.fixed cs :: _ => Statement.settled (trimStart cs)
  | _ => false

/-- The fixed parts show whether the text of a template is a quiet line. -/
def isQuiet (ps : List LinePart) : Bool :=
  ps.all feedFree && quietFront ps

theorem oneLine_text {p : LinePart} (h : feedFree p = true) : OneLine p.text := by
  rcases p with cs | ⟨t, ⟨ht⟩ | ⟨ht⟩ | ⟨ht, -⟩⟩
  · simpa [feedFree, OneLine] using h
  · exact ht.oneLine
  · exact ht
  · exact ht

theorem oneLine_template (ps : List LinePart) (h : ps.all feedFree = true) :
    OneLine (Part.template ps) := by
  rw [OneLine, Part.toList_template, List.mem_flatMap]
  rintro ⟨p, hp, hfeed⟩
  exact oneLine_text (List.all_eq_true.mp h p hp) hfeed

section

open Statement

theorem not_loud_of_goesOn {name : String} (h : PlainName name) {cs : List Char}
    (hcs : goesOn cs = true) (rest : List Char) : ¬Loud (name.toList ++ (cs ++ rest)) := by
  rcases Bool.or_eq_true_iff.mp hcs with hequals | haccess
  · obtain ⟨expr, rfl⟩ := List.isPrefixOf_iff_prefix.mp hequals
    rw [List.append_assoc]
    exact h.not_loud (expr ++ rest)
  · split at haccess
    · next c d more =>
      simp only [Bool.and_eq_true, Bool.not_eq_true', bne_iff_ne] at haccess
      obtain ⟨⟨hc, hblank⟩, hslot⟩ := haccess
      have hsettled : settled (name.toList ++ [c, d]) = true := by
        unfold settled
        rw [dropWhile_name _ h.isName.2 hc]
        by_cases hdot : c = '.'
        · have hd : d ≠ 'a' := by simpa [hdot] using hslot
          simp [hdot, hd]
        · simp [hdot, hblank]
      simpa using not_loud_of_settled hsettled (more ++ rest)
    · exact nomatch haccess

theorem not_loud_of_lead {cs : List Char} (htail : cs.dropWhile isNameChar = [' '])
    (hword : cs.takeWhile isNameChar ≠ "local".toList) {c : Char} (hc : c ≠ '=')
    (rest : List Char) : ¬Loud (cs ++ c :: rest) := by
  have hblank : isNameChar ' ' = false := by decide
  have hchars : ∀ x ∈ cs.takeWhile isNameChar, isNameChar x = true :=
    List.all_eq_true.mp List.all_takeWhile
  have hsplit : cs.takeWhile isNameChar ++ [' '] = cs := htail ▸ List.takeWhile_append_dropWhile
  have hcs : cs ++ c :: rest = cs.takeWhile isNameChar ++ ' ' :: c :: rest :=
    calc
      cs ++ c :: rest = cs.takeWhile isNameChar ++ [' '] ++ c :: rest := by rw [hsplit]
      _ = cs.takeWhile isNameChar ++ ' ' :: c :: rest := by simp
  have hdrop := dropWhile_name _ hchars hblank (c :: rest)
  have htake := takeWhile_name _ hchars hblank (c :: rest)
  rw [← hcs] at hdrop htake
  intro hloud
  rcases hloud.cases with ⟨_, heq, -⟩ | ⟨_, heq, -⟩ | ⟨name, expr, hlocal, -, -, -⟩
  · rw [hdrop] at heq
    exact hc (List.cons.inj (List.cons.inj heq).2).1
  · rw [hdrop] at heq
    exact absurd (List.cons.inj heq).1 (by decide)
  · exact hword (htake.symm.trans hlocal)

theorem not_loud_of_not_mem {cs : List Char} (h : ' ' ∉ cs) : ¬Loud cs := by
  rintro ⟨start, name, expr, rfl, -, -⟩
  simp [equals] at h

theorem not_loud_template {ps : List LinePart} (h : quietFront ps = true) :
    ¬Loud (trimStart (Part.template ps).toList) := by
  rw [Part.toList_template]
  unfold quietFront at h
  split at h
  · next cs =>
    simp only [List.flatMap_singleton, Part.text, String.toList_ofList]
    rcases Bool.or_eq_true_iff.mp h with hsettled | hblank
    · simpa using not_loud_of_settled hsettled []
    · exact not_loud_of_not_mem (by simpa using hblank)
  · next pad t ht cs ps =>
    simp only [List.flatMap_cons, Part.text, String.toList_ofList]
    rcases Bool.or_eq_true_iff.mp h with h | h
    · obtain ⟨hpad, hcs⟩ := Bool.and_eq_true_iff.mp h
      have hblank : ∀ c ∈ pad, isBlank c = true :=
        List.dropWhile_eq_nil_iff.mp (List.isEmpty_iff.mp hpad)
      rw [trimStart, List.dropWhile_append_of_pos hblank]
      change ¬Loud (trimStart _)
      rw [ht.trimStart_eq]
      exact not_loud_of_goesOn ht hcs _
    · obtain ⟨hpad, hcs⟩ := Bool.and_eq_true_iff.mp h
      have hpad : trimStart pad = localStart := eq_of_beq hpad
      obtain ⟨expr, rfl⟩ := List.isPrefixOf_iff_prefix.mp hcs
      rw [trimStart_append (by rw [hpad]; decide), hpad, List.append_assoc]
      exact ht.not_loud_local _
  · next t ht cs ps =>
    simp only [List.flatMap_cons, Part.text, String.toList_ofList]
    rw [ht.trimStart_eq]
    exact not_loud_of_goesOn ht h _
  · next cs t ht hhead ps =>
    obtain ⟨htail, hword⟩ := Bool.and_eq_true_iff.mp h
    obtain ⟨c, hc, hhead⟩ := hhead
    obtain ⟨rest, hrest⟩ := List.head?_eq_some_iff.mp hhead
    simp only [List.flatMap_cons, Part.text, String.toList_ofList, hrest, List.cons_append]
    have htail : (trimStart cs).dropWhile isNameChar = [' '] := eq_of_beq htail
    rw [trimStart_append (by intro hnil; simp [hnil] at htail)]
    exact not_loud_of_lead htail (by simpa using hword) hc _
  · next cs ps _ _ _ =>
    simp only [List.flatMap_cons, Part.text, String.toList_ofList]
    rw [trimStart_append (by intro hnil; rw [hnil] at h; cases h)]
    exact not_loud_of_settled h _
  · cases h

theorem quietLine (ps : List LinePart) (h : isQuiet ps = true) : QuietLine (Part.template ps) := by
  obtain ⟨hfeed, hfront⟩ := Bool.and_eq_true_iff.mp h
  exact ⟨oneLine_template ps hfeed, not_loud_template hfront⟩

end

end LinePart

theorem quiet_fixed {text : String} (h : LinePart.isQuiet [.fixed text.toList] = true) :
    Quiet text := by
  have hquiet := (LinePart.quietLine [.fixed text.toList] h).quiet
  rwa [Part.template, Part.text, String.ofList_toList] at hquiet

/-- A line from a template, or a text that is known to be quiet. -/
inductive Row
  | line (parts : List LinePart)
  | block (text : String) (h : Quiet text)

namespace Row

@[reducible]
def text : Row → String
  | line parts => Part.template parts
  | block t _ => t

def isQuiet : Row → Bool
  | line parts => LinePart.isQuiet parts
  | block _ _ => true

end Row

theorem quiet_rows (rows : List Row) (h : (rows.all Row.isQuiet) = true) :
    Quiet (unlines (rows.map Row.text)) := by
  refine quiet_unlines fun text htext => ?_
  obtain ⟨row, hrow, rfl⟩ := List.mem_map.mp htext
  have hquiet := List.all_eq_true.mp h row hrow
  cases row with
  | line parts => exact (LinePart.quietLine parts hquiet).quiet
  | block t ht => exact ht

end JokerRules
