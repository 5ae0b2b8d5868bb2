import JokerRules.Description
import Mathlib.Data.List.Basic

/-! Texts cut into pieces: words between blanks, and paragraphs between line feeds and marks. -/

namespace JokerRules

open Text

theorem splitWhere_ne_nil (p : Char → Bool) (cs : List Char) : splitWhere p cs ≠ [] := by
  cases cs with
  | nil => exact List.cons_ne_nil _ _
  | cons c cs =>
    unfold splitWhere
    split
    · exact List.cons_ne_nil _ _
    · cases splitWhere p cs <;> exact List.cons_ne_nil _ _

theorem splitWhere_append (p : Char → Bool) (cs : List Char) {c : Char} (hc : p c = true)
    (rest : List Char) :
    splitWhere p (cs ++ c :: rest) = splitWhere p cs ++ splitWhere p rest := by
  induction cs with
  | nil => simp [splitWhere, hc]
  | cons x cs ih =>
    simp only [List.cons_append, splitWhere, ih]
    split
    · rfl
    · obtain ⟨piece, pieces, hsplit⟩ := List.exists_cons_of_ne_nil (splitWhere_ne_nil p cs)
      simp [hsplit, extendFirst]

theorem splitWhere_of_forall (p : Char → Bool) {cs : List Char} (h : ∀ c ∈ cs, p c = false) :
    splitWhere p cs = [cs] := by
  induction cs with
  | nil => rfl
  | cons c cs ih =>
    obtain ⟨hc, hcs⟩ := List.forall_mem_cons.mp h
    simp [splitWhere, hc, ih hcs, extendFirst]

theorem eq_false_of_mem_splitWhere {p : Char → Bool} {cs piece : List Char}
    (h : piece ∈ splitWhere p cs) : ∀ c ∈ piece, p c = false := by
  induction cs generalizing piece with
  | nil =>
    rw [List.mem_singleton.mp h]
    simp
  | cons c cs ih =>
    rw [splitWhere] at h
    split at h
    · rcases List.mem_cons.mp h with rfl | h
      · simp
      · exact ih h
    · next hc =>
      obtain ⟨first, others, hsplit⟩ := List.exists_cons_of_ne_nil (splitWhere_ne_nil p cs)
      rw [hsplit, extendFirst] at h
      rcases List.mem_cons.mp h with rfl | h
      · refine List.forall_mem_cons.mpr ⟨Bool.eq_false_iff.mpr hc, ih ?_⟩
        simp [hsplit]
      · exact ih (by simp [hsplit, h])

theorem splitWhere_append_of_forall {p : Char → Bool} {cs : List Char} (h : ∀ c ∈ cs, p c = false)
    {rest piece : List Char} {pieces : List (List Char)} (hrest : splitWhere p rest = piece :: pieces) :
    splitWhere p (cs ++ rest) = (cs ++ piece) :: pieces := by
  induction cs with
  | nil => exact hrest
  | cons c cs ih =>
    obtain ⟨hc, hcs⟩ := List.forall_mem_cons.mp h
    simp [splitWhere, hc, ih hcs, extendFirst]

/-- Every piece is a part of the text, the first one its front. -/
theorem splitWhere_parts (p : Char → Bool) (cs : List Char) :
    (∀ first ∈ (splitWhere p cs).head?, first <+: cs) ∧ ∀ piece ∈ splitWhere p cs, piece <:+: cs := by
  induction cs with
  | nil => simp [splitWhere]
  | cons c cs ih =>
    have hlater : ∀ piece ∈ splitWhere p cs, piece <:+: c :: cs := fun piece hpiece =>
      (ih.2 piece hpiece).trans (List.suffix_cons c cs).isInfix
    rw [splitWhere]
    split
    · exact ⟨by simp, List.forall_mem_cons.mpr ⟨List.nil_infix, hlater⟩⟩
    · obtain ⟨first, others, hsplit⟩ := List.exists_cons_of_ne_nil (splitWhere_ne_nil p cs)
      rw [hsplit] at ih hlater ⊢
      have hfirst : c :: first <+: c :: cs := List.cons_prefix_cons.mpr ⟨rfl, ih.1 first rfl⟩
      exact ⟨by simpa [extendFirst] using hfirst,
        List.forall_mem_cons.mpr ⟨hfirst.isInfix, fun piece hpiece => hlater piece (by simp [hpiece])⟩⟩

/-- A run of characters between cuts lies in one piece. -/
theorem exists_piece_of_infix {p : Char → Bool} {s cs : List Char} (hs : ∀ c ∈ s, p c = false)
    (h : s <:+: cs) : ∃ piece ∈ splitWhere p cs, s <:+: piece := by
  obtain ⟨front, back, rfl⟩ := h
  induction front with
  | nil =>
    obtain ⟨piece, pieces, hback⟩ := List.exists_cons_of_ne_nil (splitWhere_ne_nil p back)
    refine ⟨s ++ piece, ?_, (List.prefix_append s piece).isInfix⟩
    simp [splitWhere_append_of_forall hs hback]
  | cons c front ih =>
    obtain ⟨piece, hpiece, hwithin⟩ := ih
    simp only [List.cons_append, splitWhere]
    split
    · exact ⟨piece, List.mem_cons_of_mem _ hpiece, hwithin⟩
    · obtain ⟨first, others, hsplit⟩ := List.exists_cons_of_ne_nil
        (splitWhere_ne_nil p (front ++ s ++ back))
      rw [hsplit] at hpiece ⊢
      rcases List.mem_cons.mp hpiece with rfl | hpiece
      · exact ⟨c :: piece, List.mem_cons_self, hwithin.trans (List.suffix_cons c piece).isInfix⟩
      · exact ⟨piece, List.mem_cons_of_mem _ hpiece, hwithin⟩

structure IsWord (w : List Char) : Prop where
  ne_nil : w ≠ []
  solid : ∀ c ∈ w, isBlank c = false

theorem isWord_of_mem_words {cs w : List Char} (h : w ∈ words cs) : IsWord w := by
  obtain ⟨hpiece, hne⟩ := List.mem_filter.mp h
  exact ⟨by simpa using hne, eq_false_of_mem_splitWhere hpiece⟩

theorem words_append_blank (cs : List Char) {c : Char} (hc : isBlank c = true) (rest : List Char) :
    words (cs ++ c :: rest) = words cs ++ words rest := by
  rw [words, splitWhere_append _ _ hc, List.filter_append, words, words]

theorem IsWord.words_eq {w : List Char} (h : IsWord w) : words w = [w] := by
  rw [words, splitWhere_of_forall _ h.solid]
  simp [h.ne_nil]

theorem words_eq_nil_iff {cs : List Char} : words cs = [] ↔ ∀ c ∈ cs, isBlank c = true := by
  induction cs with
  | nil => simp [words, splitWhere]
  | cons c cs ih =>
    cases hc : isBlank c with
    | true =>
      have hwords : words (c :: cs) = words cs := words_append_blank [] hc cs
      simp [hwords, ih, hc]
    | false =>
      obtain ⟨first, others, hsplit⟩ := List.exists_cons_of_ne_nil (splitWhere_ne_nil isBlank cs)
      simp [words, splitWhere, hc, hsplit, extendFirst]

theorem words_intercalate {ws : List (List Char)} (h : ∀ w ∈ ws, IsWord w) :
    words ([' '].intercalate ws) = ws := by
  induction ws with
  | nil => rfl
  | cons w ws ih =>
    obtain ⟨hw, hws⟩ := List.forall_mem_cons.mp h
    cases ws with
    | nil => rw [List.intercalate_singleton, hw.words_eq]
    | cons next ws =>
      rw [List.intercalate_cons_cons, List.append_assoc, List.singleton_append,
        words_append_blank _ (by decide), hw.words_eq, ih hws, List.singleton_append]

theorem infix_of_mem_words {cs w : List Char} (h : w ∈ words cs) : w <:+: cs :=
  (splitWhere_parts isBlank cs).2 w (List.mem_filter.mp h).1

theorem exists_word_of_infix {s cs : List Char} (hs : IsWord s) (h : s <:+: cs) :
    ∃ w ∈ words cs, s <:+: w := by
  obtain ⟨piece, hpiece, hwithin⟩ := exists_piece_of_infix hs.solid h
  refine ⟨piece, List.mem_filter.mpr ⟨hpiece, ?_⟩, hwithin⟩
  have hne : piece ≠ [] := by
    rintro rfl
    exact hs.ne_nil (List.infix_nil.mp hwithin)
  simpa using hne

namespace Description

def mark : List Char := ['[', 's', ']']

theorem isWord_mark : IsWord mark := by
  refine ⟨List.cons_ne_nil _ _, ?_⟩
  simp only [mark, List.forall_mem_cons]
  exact ⟨rfl, rfl, rfl, by simp⟩

/-- The text is the pieces, with a line feed or a mark between any two neighbours. -/
inductive Divided : List (List Char) → List Char → Prop
  | whole (p : List Char) : Divided [p] p
  | cut {sep cs : List Char} {ps : List (List Char)} (p : List Char)
      (hsep : sep = ['\n'] ∨ sep = mark) (h : Divided ps cs) : Divided (p :: ps) (p ++ sep ++ cs)

/-- The text divides into the pieces, and the pieces divide no further. -/
structure IsDivision (ps : List (List Char)) (cs : List Char) : Prop where
  divided : Divided ps cs
  feedless : ∀ p ∈ ps, '\n' ∉ p
  markless : ∀ p ∈ ps, ¬ mark <:+: p

theorem breakMarks_mark (cs : List Char) : breakMarks (mark ++ cs) = '\n' :: breakMarks cs :=
  rfl

theorem breakMarks_cons {c : Char} {cs : List Char} (h : ¬ mark <+: c :: cs) :
    breakMarks (c :: cs) = c :: breakMarks cs := by
  rw [breakMarks]
  rintro rest rfl rfl
  exact h (List.prefix_append mark rest)

/-- A mark that starts in a piece ends in it. -/
theorem mark_prefix_of_append {p rest : List Char} (hp : p ≠ []) (h : mark <+: p ++ rest)
    (hrest : ∀ c ∈ rest.head?, c = '\n' ∨ c = '[') : mark <+: p := by
  have hhead : ∀ {c : Char} {cs : List Char}, c :: cs <+: rest → c = '\n' ∨ c = '[' := by
    rintro c cs ⟨more, rfl⟩
    exact hrest c (by simp)
  match p, hp, h with
  | [a], _, h =>
    obtain ⟨-, h⟩ := List.cons_prefix_cons.mp h
    exact absurd (hhead h) (by decide)
  | [a, b], _, h =>
    obtain ⟨-, h⟩ := List.cons_prefix_cons.mp h
    obtain ⟨-, h⟩ := List.cons_prefix_cons.mp h
    exact absurd (hhead h) (by decide)
  | a :: b :: c :: p, _, h =>
    exact List.prefix_of_prefix_length_le h (List.prefix_append (a :: b :: c :: p) rest)
      (by simp [mark])

theorem breakMarks_append {p rest : List Char} (hp : ¬ mark <:+: p)
    (hrest : ∀ c ∈ rest.head?, c = '\n' ∨ c = '[') :
    breakMarks (p ++ rest) = p ++ breakMarks rest := by
  induction p with
  | nil => rfl
  | cons c p ih =>
    have hfirst : ¬ mark <+: c :: (p ++ rest) := fun h =>
      hp (mark_prefix_of_append (List.cons_ne_nil c p) h hrest).isInfix
    have hlater : ¬ mark <:+: p := fun h => hp (h.trans (List.suffix_cons c p).isInfix)
    rw [List.cons_append, breakMarks_cons hfirst, ih hlater, List.cons_append]

theorem IsDivision.eq_splitWhere {ps : List (List Char)} {cs : List Char} (h : IsDivision ps cs) :
    ps = splitWhere (· == '\n') (breakMarks cs) := by
  obtain ⟨hdivided, hfeed, hmark⟩ := h
  have hsolid : ∀ {p : List Char}, '\n' ∉ p → ∀ c ∈ p, (c == '\n') = false := by
    intro p hp c hc
    exact beq_eq_false_iff_ne.mpr fun heq => hp (heq ▸ hc)
  induction hdivided with
  | whole p =>
    have hwhole : breakMarks (p ++ []) = p ++ breakMarks [] :=
      breakMarks_append (hmark p (by simp)) (by simp)
    rw [List.append_nil, breakMarks, List.append_nil] at hwhole
    rw [hwhole, splitWhere_of_forall _ (hsolid (hfeed p (by simp)))]
  | @cut sep cs ps p hsep _ ih =>
    rw [List.forall_mem_cons] at hfeed hmark
    have hbreak : breakMarks (p ++ sep ++ cs) = p ++ '\n' :: breakMarks cs := by
      rw [List.append_assoc]
      rcases hsep with rfl | rfl
      · rw [breakMarks_append hmark.1 (by simp), List.singleton_append,
          breakMarks_cons (by simp [mark])]
      · rw [breakMarks_append hmark.1 (by simp [mark]), breakMarks_mark]
    rw [hbreak, splitWhere_append _ _ (by simp), splitWhere_of_forall _ (hsolid hfeed.1),
      ← ih hfeed.2 hmark.2]
    rfl

theorem Divided.cons {p cs : List Char} {ps : List (List Char)} (h : Divided (p :: ps) cs) (c : Char) :
    Divided ((c :: p) :: ps) (c :: cs) := by
  cases h with
  | whole => exact .whole (c :: p)
  | cut _ hsep h => exact .cut (c :: p) hsep h

theorem Divided.starts {p cs : List Char} {ps : List (List Char)} (h : Divided (p :: ps) cs) :
    p <+: cs := by
  cases h with
  | whole => exact List.prefix_rfl
  | cut _ hsep h => exact (List.prefix_append _ _).trans (List.prefix_append _ _)

theorem isDivision_splitWhere (cs : List Char) :
    IsDivision (splitWhere (· == '\n') (breakMarks cs)) cs := by
  fun_induction breakMarks cs with
  | case1 cs ih =>
    exact ⟨.cut [] (.inr rfl) ih.divided, List.forall_mem_cons.mpr ⟨by simp, ih.feedless⟩,
      List.forall_mem_cons.mpr ⟨by simp [mark], ih.markless⟩⟩
  | case2 c cs hmark ih =>
    by_cases hfeed : c = '\n'
    · subst hfeed
      exact ⟨.cut [] (.inl rfl) ih.divided, List.forall_mem_cons.mpr ⟨by simp, ih.feedless⟩,
        List.forall_mem_cons.mpr ⟨by simp [mark], ih.markless⟩⟩
    · obtain ⟨p, ps, hsplit⟩ :=
        List.exists_cons_of_ne_nil (splitWhere_ne_nil (· == '\n') (breakMarks cs))
      rw [hsplit] at ih
      have hcons : splitWhere (· == '\n') (c :: breakMarks cs) = (c :: p) :: ps := by
        simp [splitWhere, hfeed, hsplit, extendFirst]
      obtain ⟨hdivided, hfeeds, hmarks⟩ := ih
      rw [List.forall_mem_cons] at hfeeds hmarks
      rw [hcons]
      refine ⟨hdivided.cons c, List.forall_mem_cons.mpr ⟨?_, hfeeds.2⟩,
        List.forall_mem_cons.mpr ⟨fun hwithin => ?_, hmarks.2⟩⟩
      · simp [Ne.symm hfeed, hfeeds.1]
      · -- A mark in the longer piece would start the text.
        rcases List.infix_cons_iff.mp hwithin with hprefix | hwithin
        · obtain ⟨rest, hrest⟩ := hprefix.trans (List.cons_prefix_cons.mpr ⟨rfl, hdivided.starts⟩)
          cases hrest
          exact hmark rest rfl rfl
        · exact hmarks.1 hwithin
  | case3 => exact ⟨.whole [], by simp [splitWhere], by simp [splitWhere, mark]⟩

end Description

end JokerRules
