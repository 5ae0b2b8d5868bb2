import JokerRules.Proofs.Pieces
import JokerRules.Proofs.Widths
import Mathlib.Data.List.Chain
import Mathlib.Data.List.Forall2
import Mathlib.Data.List.TakeWhile

/-! Descriptions on cards. The words of a paragraph fill its lines greedily, a line that
holds several words is no wider than the card even if tags go on from word to word, and no
word is lost. -/

namespace JokerRules.Description

open Text

theorem words_joinWords {ws : List (List Char)} (h : ∀ w ∈ ws, IsWord w) :
    words (joinWords ws).toList = ws := by
  rw [toList_joinWords, words_intercalate h]

/-- The first word of the next line does not fit on the line. -/
def Breaks (width : Nat) (line next : List (List Char)) : Prop :=
  ∃ w ∈ next.head?, width < totalWidth (line ++ [w])

structure Layout (width : Nat) (ws : List (List Char)) (ls : List (List (List Char))) : Prop where
  flatten : ls.flatten = ws
  nonempty : ∀ l ∈ ls, l ≠ []
  fits : ∀ l ∈ ls, 1 < l.length → totalWidth l ≤ width
  greedy : ls.IsChain (Breaks width)

theorem head?_fill (width : Nat) (line : List (List Char)) (used : Nat) (ws : List (List Char)) :
    ∃ more rest, fill width line used ws = (line.reverse ++ more) :: rest := by
  fun_induction fill width line used ws with
  | case1 line used => exact ⟨[], [], by simp⟩
  | case2 line used w ws h ih => exact ⟨[], _, by rw [List.append_nil]⟩
  | case3 line used w ws h ih =>
    obtain ⟨more, rest, hfill⟩ := ih
    exact ⟨w :: more, rest, by simpa using hfill⟩

/-- The line at hand has the width that is kept for it, and it fits unless it is one word. -/
theorem layout_fill (width : Nat) {line : List (List Char)} {used : Nat} (ws : List (List Char))
    (hline : line ≠ []) (hused : used = totalWidth line.reverse)
    (hfits : 1 < line.length → used ≤ width) :
    Layout width (line.reverse ++ ws) (fill width line used ws) := by
  fun_induction fill width line used ws with
  | case1 line used =>
    refine ⟨by simp, by simpa using hline, ?_, List.isChain_singleton _⟩
    simpa [← hused] using hfits
  | case2 line used w ws hwide ih =>
    obtain ⟨hflatten, hnonempty, hall, hgreedy⟩ :=
      ih (List.cons_ne_nil w []) (by simp [totalWidth, wordWidth_eq]) (by simp)
    obtain ⟨more, rest, hfill⟩ := head?_fill width [w] (wordWidth w) ws
    refine ⟨by simp [hflatten], List.forall_mem_cons.mpr ⟨by simpa using hline, hnonempty⟩,
      List.forall_mem_cons.mpr ⟨by simpa [← hused] using hfits, hall⟩, ?_⟩
    rw [hfill] at hgreedy ⊢
    refine List.isChain_cons_cons.mpr ⟨⟨w, by simp, ?_⟩, hgreedy⟩
    rw [totalWidth_append (by simpa using hline), ← hused, ← wordWidth_eq]
    exact hwide
  | case3 line used w ws hnarrow ih =>
    have hlayout := ih (List.cons_ne_nil w line)
      (by rw [List.reverse_cons, totalWidth_append (by simpa using hline), hused, wordWidth_eq])
      (fun _ => Nat.not_lt.mp hnarrow)
    simpa using hlayout

theorem isBlankText_iff {p : List Char} : isBlankText p = true ↔ words p = [] := by
  rw [words_eq_nil_iff, isBlankText, List.all_eq_true]

theorem exists_layout (width : Nat) {p : List Char} (h : isBlankText p = false) :
    ∃ ls, Layout width (words p) ls ∧ ls ≠ [] ∧ paragraphLines width p = ls.map joinWords := by
  unfold paragraphLines
  cases hwords : words p with
  | nil => exact absurd (isBlankText_iff.mpr hwords) (Bool.eq_false_iff.mp h)
  | cons w ws =>
    obtain ⟨more, rest, hfill⟩ := head?_fill width [w] (wordWidth w) ws
    have hwidth : wordWidth w = totalWidth [w].reverse := by simp [totalWidth, wordWidth_eq]
    exact ⟨_, layout_fill width ws (List.cons_ne_nil w []) hwidth (by simp), by simp [hfill], rfl⟩

theorem paragraphLines_of_blank (width : Nat) {p : List Char} (h : isBlankText p = true) :
    paragraphLines width p = [""] := by
  rw [paragraphLines, isBlankText_iff.mp h]

namespace Layout

variable {width : Nat} {p : List Char} {ls : List (List (List Char))}

theorem isWord (h : Layout width (words p) ls) {l : List (List Char)} (hl : l ∈ ls) :
    ∀ w ∈ l, IsWord w := by
  intro w hw
  have hmem : w ∈ words p := by
    rw [← h.flatten]
    exact List.mem_flatten.mpr ⟨l, hl, hw⟩
  exact isWord_of_mem_words hmem

theorem map_words (h : Layout width (words p) ls) :
    (ls.map joinWords).map (fun line => words line.toList) = ls := by
  rw [List.map_map]
  exact (List.map_congr_left fun l hl => words_joinWords (h.isWord hl)).trans (List.map_id ls)

theorem joinWords_ne_empty (h : Layout width (words p) ls) {l : List (List Char)} (hl : l ∈ ls) :
    joinWords l ≠ "" := by
  intro hempty
  have hwords := words_joinWords (h.isWord hl)
  rw [hempty] at hwords
  exact h.nonempty l hl hwords.symm

end Layout

/-- A blank paragraph is an empty line, and any other stands word by word on lines that are not. -/
def Lays (p : List Char) (run : List String) : Prop :=
  if isBlankText p then run = [""]
  else run ≠ [] ∧ (∀ line ∈ run, line ≠ "") ∧ run.flatMap (fun line => words line.toList) = words p

theorem lays_paragraphLines (width : Nat) (p : List Char) : Lays p (paragraphLines width p) := by
  unfold Lays
  split
  · next hblank => exact paragraphLines_of_blank width hblank
  · next hblank =>
    obtain ⟨ls, hlayout, hne, hlines⟩ := exists_layout width (Bool.eq_false_iff.mpr hblank)
    rw [hlines]
    refine ⟨by simpa using hne, ?_, ?_⟩
    · simpa using fun l hl => hlayout.joinWords_ne_empty hl
    · rw [List.flatMap_def, hlayout.map_words, hlayout.flatten]

theorem visibleWidth_paragraphLines_le {width : Nat} {p : List Char} {line : String}
    (hline : line ∈ paragraphLines width p) (hmany : 1 < (words line.toList).length) :
    visibleWidth line ≤ width := by
  cases hblank : isBlankText p with
  | true =>
    rw [paragraphLines_of_blank width hblank, List.mem_singleton] at hline
    subst hline
    exact absurd hmany (by decide)
  | false =>
    obtain ⟨ls, hlayout, -, hlines⟩ := exists_layout width hblank
    rw [hlines] at hline
    obtain ⟨l, hl, rfl⟩ := List.mem_map.mp hline
    rw [words_joinWords (hlayout.isWord hl)] at hmany
    exact (visibleWidth_joinWords_le l).trans (hlayout.fits l hl hmany)

theorem isChain_paragraphLines (width : Nat) (p : List Char) :
    (paragraphLines width p).IsChain fun line next =>
      Breaks width (words line.toList) (words next.toList) := by
  cases hblank : isBlankText p with
  | true =>
    rw [paragraphLines_of_blank width hblank]
    exact List.isChain_singleton _
  | false =>
    obtain ⟨ls, hlayout, -, hlines⟩ := exists_layout width hblank
    rw [hlines]
    have hgreedy := hlayout.greedy
    rwa [← hlayout.map_words, List.isChain_map] at hgreedy

/-- What is left of paragraphs without the blank ones at both ends. -/
structure IsBody (ps kept : List (List Char)) : Prop where
  ends : ∃ front back, ps = front ++ kept ++ back ∧ ∀ p ∈ front ++ back, isBlankText p = true
  first : ∀ p ∈ kept.head?, isBlankText p = false
  last : ∀ p ∈ kept.getLast?, isBlankText p = false

theorem isBody_trimParagraphs (ps : List (List Char)) : IsBody ps (trimParagraphs ps) := by
  have hfirst : ∀ (qs : List (List Char)), ∀ p ∈ (qs.dropWhile isBlankText).head?,
      isBlankText p = false := by
    intro qs p hp
    have hhead := List.head?_dropWhile_not isBlankText qs
    rwa [Option.mem_def.mp hp] at hhead
  have htrimmed : ∀ (qs : List (List Char)), ∀ p ∈ qs.takeWhile isBlankText, isBlankText p = true :=
    fun qs p hp => List.mem_takeWhile_imp hp
  let rest := ps.dropWhile isBlankText
  have hrest : rest = trimParagraphs ps ++ (rest.reverse.takeWhile isBlankText).reverse := by
    rw [trimParagraphs, ← List.reverse_append, List.takeWhile_append_dropWhile, List.reverse_reverse]
  refine ⟨⟨ps.takeWhile isBlankText, (rest.reverse.takeWhile isBlankText).reverse, ?_, ?_⟩,
    fun p hp => ?_, fun p hp => ?_⟩
  · rw [List.append_assoc, ← hrest, List.takeWhile_append_dropWhile]
  · intro p hp
    rcases List.mem_append.mp hp with hp | hp
    · exact htrimmed ps p hp
    · exact htrimmed rest.reverse p (List.mem_reverse.mp hp)
  · -- The first paragraph that is kept is the first one that is not blank.
    refine hfirst ps p ?_
    show p ∈ rest.head?
    rw [hrest, List.head?_append, Option.mem_def.mp hp]
    rfl
  · rw [trimParagraphs, List.getLast?_reverse] at hp
    exact hfirst _ p hp

theorem IsBody.eq_nil_iff {ps kept : List (List Char)} (h : IsBody ps kept) :
    kept = [] ↔ ∀ p ∈ ps, isBlankText p = true := by
  obtain ⟨⟨front, back, rfl, hends⟩, hfirst, -⟩ := h
  constructor
  · rintro rfl
    simpa using hends
  · intro hblank
    cases kept with
    | nil => rfl
    | cons p kept =>
      have hp := hfirst p rfl
      rw [hblank p (by simp)] at hp
      cases hp

theorem exists_body (text : String) :
    ∃ ps, IsDivision ps text.toList ∧ IsBody ps (paragraphs text) :=
  ⟨_, isDivision_splitWhere text.toList, isBody_trimParagraphs _⟩

theorem wrap_eq_flatten (text : String) (width : Nat) :
    wrap text width = ((paragraphs text).map (paragraphLines (max width 1))).flatten :=
  List.flatMap_def

/-- Lines of several words are no wider than the card, whether or not tags go on from word to word,
and within a paragraph a line ends only where the next word would make it too wide. -/
theorem wrapped_lines_fit (text : String) (width : Nat) :
    (∀ line ∈ wrap text width, 1 < (words line.toList).length → visibleWidth line ≤ max width 1) ∧
    ∃ ps kept runs, IsDivision ps text.toList ∧ IsBody ps kept ∧ wrap text width = runs.flatten ∧
      List.Forall₂ (fun p run => Lays p run ∧ run.IsChain fun line next =>
        Breaks (max width 1) (words line.toList) (words next.toList)) kept runs := by
  obtain ⟨ps, hdivision, hbody⟩ := exists_body text
  refine ⟨fun line hline hmany => ?_, ps, paragraphs text, _, hdivision, hbody,
    wrap_eq_flatten text width, ?_⟩
  · obtain ⟨p, -, hp⟩ := List.mem_flatMap.mp hline
    exact visibleWidth_paragraphLines_le hp hmany
  · rw [List.forall₂_map_right_iff, List.forall₂_same]
    exact fun p _ => ⟨lays_paragraphLines _ p, isChain_paragraphLines _ p⟩

/-- A line ends by the widths of its words, even where an open tag would hide the next one. -/
example : wrap "\x7bb c\x7dd" 3 = ["\x7bb", "c\x7dd"] ∧ visibleWidth "\x7bb c\x7dd" = 1 := by
  decide +kernel

theorem head?_flatMap_ne_empty {width : Nat} {kept : List (List Char)}
    (h : ∀ p ∈ kept.head?, isBlankText p = false) :
    ∀ line ∈ (kept.flatMap (paragraphLines width)).head?, line ≠ "" := by
  cases kept with
  | nil => simp
  | cons p kept =>
    have hlays := lays_paragraphLines width p
    rw [Lays, h p rfl, if_neg Bool.false_ne_true] at hlays
    obtain ⟨first, others, hlines⟩ := List.exists_cons_of_ne_nil hlays.1
    intro line hline
    rw [List.flatMap_cons, hlines] at hline
    obtain rfl : first = line := by simpa using hline
    exact hlays.2.1 first (by simp [hlines])

theorem getLast?_flatMap_ne_empty {width : Nat} {kept : List (List Char)}
    (h : ∀ p ∈ kept.getLast?, isBlankText p = false) :
    ∀ line ∈ (kept.flatMap (paragraphLines width)).getLast?, line ≠ "" := by
  rcases List.eq_nil_or_concat kept with rfl | ⟨front, p, rfl⟩
  · simp
  · have hlays := lays_paragraphLines width p
    rw [Lays, h p (by simp), if_neg Bool.false_ne_true] at hlays
    intro line hline
    rw [List.concat_eq_append, List.flatMap_append, List.flatMap_singleton,
      List.getLast?_append_of_ne_nil _ hlays.1] at hline
    exact hlays.2.1 line (List.mem_of_getLast? hline)

theorem wrap_eq_nil_iff {text : String} {width : Nat} : wrap text width = [] ↔ paragraphs text = [] := by
  rw [wrap, List.flatMap_eq_nil_iff]
  constructor
  · intro h
    refine List.eq_nil_iff_forall_not_mem.mpr fun p hp => ?_
    have hlays := lays_paragraphLines (max width 1) p
    rw [h p hp, Lays] at hlays
    split at hlays
    · cases hlays
    · exact hlays.1 rfl
  · intro h
    simp [h]

/-- The lines are those of the paragraphs one after another, and they hold the words of the
paragraphs in order, each of them once. There is no line exactly if there is no word, and the first
line and the last one are not empty. -/
theorem wrap_keeps_words (text : String) (width : Nat) :
    ∃ ps kept runs, IsDivision ps text.toList ∧ (∀ qs, IsDivision qs text.toList → qs = ps) ∧
      IsBody ps kept ∧ wrap text width = runs.flatten ∧ List.Forall₂ Lays kept runs ∧
      (wrap text width = [] ↔ ∀ p ∈ ps, isBlankText p = true) ∧
      (∀ line ∈ (wrap text width).head?, line ≠ "") ∧
      ∀ line ∈ (wrap text width).getLast?, line ≠ "" := by
  obtain ⟨ps, hdivision, hbody⟩ := exists_body text
  refine ⟨ps, paragraphs text, _, hdivision, fun qs hqs => ?_, hbody, wrap_eq_flatten text width, ?_,
    wrap_eq_nil_iff.trans hbody.eq_nil_iff, head?_flatMap_ne_empty hbody.first,
    getLast?_flatMap_ne_empty hbody.last⟩
  · exact hqs.eq_splitWhere.trans hdivision.eq_splitWhere.symm
  · rw [List.forall₂_map_right_iff, List.forall₂_same]
    exact fun p _ => lays_paragraphLines _ p

end JokerRules.Description
