import JokerRules.Proofs.Wrapping

/-! Lines that are wrapped again. They stay as they are, all together and one by one, since each of
them holds words that fit or a single one, and no mark that would divide it. -/

namespace JokerRules.Description

open Text

/-- Words that fit stay on the line at hand. -/
theorem fill_of_fits {width : Nat} {line : List (List Char)} {used : Nat} {ws : List (List Char)}
    (hline : line ≠ []) (hused : used = totalWidth line.reverse)
    (hfits : ws ≠ [] → totalWidth (line.reverse ++ ws) ≤ width) :
    fill width line used ws = [line.reverse ++ ws] := by
  induction ws generalizing line used with
  | nil => rw [fill, List.append_nil]
  | cons w ws ih =>
    have hwhole : line.reverse ++ w :: ws = (w :: line).reverse ++ ws := by simp
    have hnext : used + 1 + wordWidth w = totalWidth (w :: line).reverse := by
      rw [List.reverse_cons, totalWidth_append (by simpa using hline), hused, wordWidth_eq]
    have hfit := hfits (List.cons_ne_nil w ws)
    rw [hwhole] at hfit ⊢
    have hword := (totalWidth_append_le (w :: line).reverse ws).trans hfit
    rw [fill, if_neg (by omega), ih (List.cons_ne_nil w line) hnext (fun _ => hfit)]

/-- A line that is left as it is. -/
structure IsLine (width : Nat) (line : String) : Prop where
  feedless : '\n' ∉ line.toList
  markless : ¬ mark <:+: line.toList
  kept : paragraphLines width line.toList = [line]

theorem IsLine.eq_empty {width : Nat} {line : String} (h : IsLine width line)
    (hblank : isBlankText line.toList = true) : line = "" := by
  have hkept := h.kept
  rw [paragraphLines_of_blank width hblank] at hkept
  simpa using hkept.symm

theorem isLine_empty (width : Nat) : IsLine width "" :=
  ⟨by simp, by decide, rfl⟩

theorem feedless_joinWords {ws : List (List Char)} (h : ∀ w ∈ ws, IsWord w) :
    '\n' ∉ (joinWords ws).toList := by
  rw [toList_joinWords]
  induction ws with
  | nil => exact List.not_mem_nil
  | cons w ws ih =>
    obtain ⟨hw, hws⟩ := List.forall_mem_cons.mp h
    have hword : '\n' ∉ w := fun hmem => absurd (hw.solid _ hmem) (by decide)
    cases ws with
    | nil => simpa using hword
    | cons next ws =>
      rw [List.intercalate_cons_cons, List.append_assoc, List.mem_append, List.mem_append]
      rintro (hmem | hmem | hmem)
      · exact hword hmem
      · exact absurd hmem (by decide)
      · exact ih hws hmem

theorem Layout.isLine {width : Nat} {p : List Char} {ls : List (List (List Char))}
    (h : Layout width (words p) ls) (hmark : ¬ mark <:+: p) {l : List (List Char)} (hl : l ∈ ls) :
    IsLine width (joinWords l) := by
  have hwords := words_joinWords (h.isWord hl)
  refine ⟨feedless_joinWords (h.isWord hl), fun hwithin => ?_, ?_⟩
  · -- A mark has no blank, so it would stand in a word, and the word in the paragraph.
    obtain ⟨w, hw, hwithin⟩ := exists_word_of_infix isWord_mark hwithin
    rw [hwords] at hw
    have hmem : w ∈ words p := h.flatten ▸ List.mem_flatten.mpr ⟨l, hl, hw⟩
    exact hmark (hwithin.trans (infix_of_mem_words hmem))
  · obtain ⟨w, ws, rfl⟩ := List.exists_cons_of_ne_nil (h.nonempty l hl)
    have hwidth : wordWidth w = totalWidth [w].reverse := by simp [totalWidth, wordWidth_eq]
    have hfill : fill width [w] (wordWidth w) ws = [w :: ws] :=
      fill_of_fits (List.cons_ne_nil w []) hwidth fun hws =>
        h.fits _ hl (by simpa using List.length_pos_iff.mpr hws)
    simp [paragraphLines, hwords, hfill]

theorem isLine_of_mem_paragraphLines {width : Nat} {p : List Char} (hmark : ¬ mark <:+: p)
    {line : String} (h : line ∈ paragraphLines width p) : IsLine width line := by
  cases hblank : isBlankText p with
  | true =>
    rw [paragraphLines_of_blank width hblank, List.mem_singleton] at h
    exact h ▸ isLine_empty width
  | false =>
    obtain ⟨ls, hlayout, -, hlines⟩ := exists_layout width hblank
    rw [hlines] at h
    obtain ⟨l, hl, rfl⟩ := List.mem_map.mp h
    exact hlayout.isLine hmark hl

theorem isLine_of_mem_wrap {text : String} {width : Nat} {line : String} (h : line ∈ wrap text width) :
    IsLine (max width 1) line := by
  obtain ⟨p, hp, hline⟩ := List.mem_flatMap.mp h
  obtain ⟨ps, hdivision, ⟨front, back, hps, -⟩, -, -⟩ := exists_body text
  exact isLine_of_mem_paragraphLines (hdivision.markless p (by simp [hps, hp])) hline

theorem divided_unlines (line : String) (lines : List String) :
    Divided ((line :: lines).map String.toList) (unlines (line :: lines)).toList := by
  rw [unlines, String.toList_intercalate]
  induction lines generalizing line with
  | nil => simpa using Divided.whole line.toList
  | cons next lines ih =>
    rw [List.map_cons, List.map_cons, List.intercalate_cons_cons]
    exact .cut line.toList (.inl rfl) (ih next)

theorem trimParagraphs_of_ends {ps : List (List Char)} (hfirst : ∀ p ∈ ps.head?, isBlankText p = false)
    (hlast : ∀ p ∈ ps.getLast?, isBlankText p = false) : trimParagraphs ps = ps := by
  have hfront : ∀ {qs : List (List Char)}, (∀ p ∈ qs.head?, isBlankText p = false) →
      qs.dropWhile isBlankText = qs := by
    intro qs hqs
    cases qs with
    | nil => rfl
    | cons q qs => rw [List.dropWhile_cons, hqs q rfl, if_neg Bool.false_ne_true]
  rw [trimParagraphs, hfront hfirst, hfront (by simpa using hlast), List.reverse_reverse]

/-- Lines that are left as they are, with none empty at an end, are the lines of their text. -/
theorem wrap_unlines {width : Nat} {lines : List String}
    (hlines : ∀ line ∈ lines, IsLine (max width 1) line) (hfirst : ∀ line ∈ lines.head?, line ≠ "")
    (hlast : ∀ line ∈ lines.getLast?, line ≠ "") : wrap (unlines lines) width = lines := by
  cases lines with
  | nil => rfl
  | cons line lines =>
    have hdivision : IsDivision ((line :: lines).map String.toList) (unlines (line :: lines)).toList :=
      ⟨divided_unlines line lines, by simpa using fun l hl => (hlines l hl).feedless,
        by simpa using fun l hl => (hlines l hl).markless⟩
    have hends : ∀ l ∈ line :: lines, l ≠ "" → isBlankText l.toList = false := fun l hl hne =>
      Bool.eq_false_iff.mpr fun hblank => hne ((hlines l hl).eq_empty hblank)
    rw [wrap, paragraphs, ← hdivision.eq_splitWhere, trimParagraphs_of_ends, List.flatMap_map]
    · rw [List.flatMap_congr fun l hl => (hlines l hl).kept, List.flatMap_singleton']
    · simpa using hends line List.mem_cons_self (hfirst line rfl)
    · intro p hp
      rw [List.getLast?_map] at hp
      obtain ⟨l, hl, rfl⟩ := Option.map_eq_some_iff.mp hp
      exact hends l (List.mem_of_getLast? hl) (hlast l hl)

/-- Wrapping lines again leaves them as they are, all together and one by one, and no mark is left
in them. -/
theorem wrap_wrapped (text : String) (width : Nat) :
    wrap (unlines (wrap text width)) width = wrap text width ∧
    ∀ line ∈ wrap text width, ¬ mark <:+: line.toList ∧ (line ≠ "" → wrap line width = [line]) := by
  have hbody := isBody_trimParagraphs (splitWhere (· == '\n') (breakMarks text.toList))
  have hlines : ∀ line ∈ wrap text width, IsLine (max width 1) line := fun _ => isLine_of_mem_wrap
  refine ⟨wrap_unlines hlines (head?_flatMap_ne_empty hbody.first)
    (getLast?_flatMap_ne_empty hbody.last),
    fun line hline => ⟨(hlines line hline).markless, fun hne => ?_⟩⟩
  have hsingle : wrap (unlines [line]) width = [line] :=
    wrap_unlines (by simpa using hlines line hline) (by simpa using hne) (by simpa using hne)
  simpa [unlines] using hsingle

/-- The two halves of a mark around another one stay on two lines, and an empty line stays in
between. -/
theorem divided_mark_wrapped :
    wrap "a [[s]s][s][s]b" 9 = ["a [", "s]", "", "b"] ∧
    wrap (unlines ["a [", "s]", "", "b"]) 9 = ["a [", "s]", "", "b"] ∧
    ¬ mark <:+: "s]".toList ∧ wrap "s]" 9 = ["s]"] := by
  have hlines : wrap "a [[s]s][s][s]b" 9 = ["a [", "s]", "", "b"] := by decide +kernel
  obtain ⟨hagain, hline⟩ := wrap_wrapped "a [[s]s][s][s]b" 9
  rw [hlines] at hagain hline
  obtain ⟨hmark, hwhole⟩ := hline "s]" (by decide)
  exact ⟨hlines, hagain, hmark, hwhole (by decide)⟩

end JokerRules.Description
