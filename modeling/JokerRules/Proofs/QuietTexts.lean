import JokerRules.Proofs.Brackets.Layout
import JokerRules.Proofs.LoudLines
import JokerRules.Proofs.Pieces

/-! Quiet texts: no line of theirs writes a slot or a captured value, and so neither does their
execution, whatever lines it takes. Layout keeps texts quiet. -/

namespace JokerRules

open Text

/-- None of the lines writes a slot or a captured value. The definition is not unfolded outside this
module: comparing two quiet texts must never start to compare their lines. -/
def Quiet (text : String) : Prop :=
  ∀ line ∈ linesOf text, ¬Statement.Loud line

theorem mem_split_joined {ls : List (List Char)} {line : List Char}
    (h : line ∈ splitWhere (· == '\n') (['\n'].intercalate ls)) :
    line = [] ∨ ∃ l ∈ ls, line ∈ splitWhere (· == '\n') l := by
  induction ls with
  | nil => exact .inl (List.mem_singleton.mp h)
  | cons l ls ih =>
    cases ls with
    | nil => exact .inr ⟨l, List.mem_cons_self, by simpa using h⟩
    | cons l' ls =>
      have hjoin : ['\n'].intercalate (l :: l' :: ls) = l ++ '\n' :: ['\n'].intercalate (l' :: ls) := by
        simp
      rw [hjoin, splitWhere_append _ _ (by rfl)] at h
      rcases List.mem_append.mp h with h | h
      · exact .inr ⟨l, List.mem_cons_self, h⟩
      · refine (ih h).imp_right ?_
        rintro ⟨m, hm, hline⟩
        exact ⟨m, List.mem_cons_of_mem _ hm, hline⟩

theorem toList_unlines (texts : List String) :
    (unlines texts).toList = ['\n'].intercalate (texts.map String.toList) := by
  simp [unlines, String.toList_intercalate]

theorem quiet_unlines {texts : List String} (h : ∀ text ∈ texts, Quiet text) :
    Quiet (unlines texts) := by
  intro line hline
  obtain ⟨raw, hraw, rfl⟩ := List.mem_map.mp hline
  rw [toList_unlines] at hraw
  rcases mem_split_joined hraw with rfl | ⟨l, hl, hmem⟩
  · exact Statement.not_loud_nil
  · obtain ⟨text, htext, rfl⟩ := List.mem_map.mp hl
    exact h text htext _ (List.mem_map_of_mem hmem)

theorem not_lineFeed_of_mem_lines {cs l : List Char} (h : l ∈ lines cs) : '\n' ∉ l := by
  fun_induction lines cs generalizing l with
  | case1 => cases h
  | case2 cs ih =>
    rcases List.mem_cons.mp h with rfl | h
    · exact List.not_mem_nil
    · exact ih h
  | case3 cs ih =>
    rcases List.mem_cons.mp h with rfl | h
    · exact List.not_mem_nil
    · exact ih h
  | case4 c cs hc hcs ih =>
    have hne : c ≠ '\n' := hc
    cases hlines : lines cs with
    | nil =>
      rw [hlines] at h
      obtain rfl := List.mem_singleton.mp h
      simp [Ne.symm hne]
    | cons first rest =>
      rw [hlines] at h ih
      rcases List.mem_cons.mp h with rfl | h
      · have hfirst := ih List.mem_cons_self
        simp [Ne.symm hne, hfirst]
      · exact ih (List.mem_cons_of_mem _ h)

theorem lines_eq_nil {cs : List Char} (h : lines cs = []) : cs = [] := by
  fun_cases lines cs with
  | case1 => rfl
  | case2 cs => exact absurd h (List.cons_ne_nil _ _)
  | case3 cs => exact absurd h (List.cons_ne_nil _ _)
  | case4 c cs hc hcs =>
    rw [lines] at h
    · cases hlines : lines cs <;> rw [hlines] at h <;> exact nomatch h
    · exact hc
    · exact hcs

/-- Each line is the front of a piece between line feeds. -/
theorem lines_front (cs : List Char) :
    ∃ more, List.Forall₂ (· <+: ·) (lines cs ++ more) (splitWhere (· == '\n') cs) := by
  fun_induction lines cs with
  | case1 => exact ⟨[[]], .cons (List.prefix_refl _) .nil⟩
  | case2 cs ih =>
    obtain ⟨more, hmore⟩ := ih
    exact ⟨more, .cons (List.prefix_refl _) hmore⟩
  | case3 cs ih =>
    obtain ⟨more, hmore⟩ := ih
    exact ⟨more, .cons List.nil_prefix hmore⟩
  | case4 c cs hc hcs ih =>
    obtain ⟨more, hmore⟩ := ih
    have hne : (c == '\n') = false := by
      rw [beq_eq_false_iff_ne]
      exact hc
    simp only [splitWhere, hne]
    cases hlines : lines cs with
    | nil =>
      obtain rfl := lines_eq_nil hlines
      exact ⟨[], .cons (List.prefix_refl _) .nil⟩
    | cons first rest =>
      rw [hlines] at hmore
      cases hsplit : splitWhere (· == '\n') cs with
      | nil => exact absurd hsplit (splitWhere_ne_nil _ _)
      | cons piece pieces =>
        rw [hsplit] at hmore
        obtain ⟨hfirst, hrest⟩ := List.forall₂_cons.mp hmore
        exact ⟨more, .cons (List.cons_prefix_cons.mpr ⟨rfl, hfirst⟩) hrest⟩

theorem exists_piece_of_mem_lines {cs l : List Char} (h : l ∈ lines cs) :
    ∃ piece ∈ splitWhere (· == '\n') cs, l <+: piece := by
  obtain ⟨more, hmore⟩ := lines_front cs
  obtain ⟨i, hi, rfl⟩ := List.mem_iff_getElem.mp (List.mem_append_left more h)
  have hlength := hmore.length_eq
  exact ⟨_, List.getElem_mem (hlength ▸ hi), hmore.get hi (hlength ▸ hi)⟩

theorem trimStart_indentLine {line : List Char} (depth : Nat) :
    trimStart (indentLine depth line) = trimStart line := by
  unfold indentLine
  split
  · next h =>
    rw [trimStart, trimStart, List.dropWhile_nil]
    exact (List.dropWhile_eq_nil_iff.mpr (List.all_eq_true.mp h)).symm
  · refine List.dropWhile_append_of_pos fun c hc => ?_
    rw [List.eq_of_mem_replicate hc]
    rfl

theorem trimStart_front {l m : List Char} (h : l <+: m) : trimStart l <+: trimStart m := by
  obtain ⟨more, rfl⟩ := h
  rw [trimStart, trimStart, List.dropWhile_append]
  split
  · next hnil => simp [List.isEmpty_iff.mp hnil]
  · exact List.prefix_append _ _

theorem Quiet.indent {text : String} (h : Quiet text) (depth : Nat) :
    Quiet (Text.indent depth text) := by
  intro line hline
  obtain ⟨raw, hraw, rfl⟩ := List.mem_map.mp hline
  rw [Text.indent, toList_unlines, List.map_map] at hraw
  rcases mem_split_joined hraw with rfl | ⟨l, hl, hmem⟩
  · exact Statement.not_loud_nil
  obtain ⟨m, hm, rfl⟩ := List.mem_map.mp hl
  obtain rfl : raw = indentLine depth m := by
    have hfeed : ∀ c ∈ indentLine depth m, (c == '\n') = false := by
      intro c hc
      rw [beq_eq_false_iff_ne]
      rintro rfl
      unfold indentLine at hc
      split at hc
      · cases hc
      · rcases List.mem_append.mp hc with hc | hc
        · exact absurd (List.eq_of_mem_replicate hc) (by decide)
        · exact not_lineFeed_of_mem_lines hm hc
    rw [Function.comp_apply, String.toList_ofList, splitWhere_of_forall _ hfeed] at hmem
    exact List.mem_singleton.mp hmem
  obtain ⟨piece, hpiece, hprefix⟩ := exists_piece_of_mem_lines hm
  intro hloud
  rw [trimStart_indentLine] at hloud
  exact h _ (List.mem_map_of_mem hpiece) (hloud.extend (trimStart_front hprefix))

/-- The text has no line feed. -/
def OneLine (text : String) : Prop :=
  '\n' ∉ text.toList

instance (text : String) : Decidable (OneLine text) :=
  inferInstanceAs (Decidable (_ ∉ _))

theorem OneLine.append {a b : String} (ha : OneLine a) (hb : OneLine b) : OneLine (a ++ b) := by
  simp only [OneLine, String.toList_append, List.mem_append, not_or]
  exact ⟨ha, hb⟩

theorem linesOf_of_oneLine {text : String} (h : OneLine text) :
    linesOf text = [trimStart text.toList] := by
  have hfeed : ∀ c ∈ text.toList, (c == '\n') = false := by
    intro c hc
    rw [beq_eq_false_iff_ne]
    rintro rfl
    exact h hc
  rw [linesOf, splitWhere_of_forall _ hfeed, List.map_singleton]

structure QuietLine (text : String) : Prop where
  oneLine : OneLine text
  not_loud : ¬Statement.Loud (trimStart text.toList)

theorem QuietLine.quiet {text : String} (h : QuietLine text) : Quiet text := by
  intro line hmem
  rw [linesOf_of_oneLine h.oneLine] at hmem
  rw [List.mem_singleton.mp hmem]
  exact h.not_loud

theorem QuietLine.pad {text : String} (h : QuietLine text) {pad : String}
    (hpad : ∀ c ∈ pad.toList, c = ' ') : QuietLine (pad ++ text) := by
  have hfeed : OneLine pad := fun hmem => absurd (hpad _ hmem) (by decide)
  refine ⟨hfeed.append h.oneLine, ?_⟩
  have hblank : ∀ c ∈ pad.toList, isBlank c = true := fun c hc => hpad c hc ▸ rfl
  rw [String.toList_append, trimStart, List.dropWhile_append_of_pos hblank]
  exact h.not_loud

theorem trimStart_append {a : List Char} (h : trimStart a ≠ []) (b : List Char) :
    trimStart (a ++ b) = trimStart a ++ b := by
  rw [trimStart, List.dropWhile_append, if_neg (by simpa [trimStart] using h)]
  rfl

namespace Statement.PlainName

variable {name : String} (h : PlainName name)

include h

theorem oneLine : OneLine name :=
  fun hmem => ne_lineFeed_of_isNameChar (h.isName.2 _ hmem) rfl

theorem trimStart_eq (rest : List Char) : trimStart (name.toList ++ rest) = name.toList ++ rest := by
  obtain ⟨c, cs, hcs⟩ := List.exists_cons_of_ne_nil h.isName.1
  have hc := isBlank_of_isNameChar (h.isName.2 c (hcs ▸ List.mem_cons_self))
  rw [hcs, List.cons_append, trimStart, List.dropWhile_cons_of_neg (by simp [hc])]

end Statement.PlainName

/-- Only slots with a property are written, and captured values stay. -/
structure Keeps {V : Type} (W : String → Prop) (s s' : Store V) : Prop where
  slots : ∀ slot, ¬W slot → s'.slots slot = s.slots slot
  locals : ∀ name : String, "_value".toList <:+ name.toList → s'.locals name = s.locals name

section Keeps

variable {V : Type} {eval : Store V → String → V} {W : String → Prop} {s s' s'' : Store V}

theorem Keeps.refl (W : String → Prop) (s : Store V) : Keeps W s s :=
  ⟨fun _ _ => rfl, fun _ _ => rfl⟩

theorem Keeps.trans (h : Keeps W s s') (h' : Keeps W s' s'') : Keeps W s s'' :=
  ⟨fun slot hslot => (h'.slots slot hslot).trans (h.slots slot hslot),
    fun name hname => (h'.locals name hname).trans (h.locals name hname)⟩

theorem keeps_of_not_loud {cs : List Char} (h : ¬Statement.Loud cs) (s : Store V) :
    Keeps W s ((Statement.read cs).run eval s) := by
  cases hread : Statement.read cs with
  | bind name expr =>
    refine ⟨fun _ _ => rfl, fun name' hname' => ?_⟩
    have hne : name' ≠ name := fun heq => h (Statement.loud_of_read_bind hread (heq ▸ hname'))
    exact Function.update_of_ne hne _ _
  | assign slot expr => exact absurd (Statement.loud_of_read_assign hread) h
  | other => exact .refl W s

theorem linesOf_eq_cons (text : String) :
    ∃ first rest, linesOf text = trimStart first :: rest ∧
      (text.toList = first ∨ ∃ more, text.toList = first ++ '\n' :: more) := by
  by_cases hfeed : '\n' ∈ text.toList
  · obtain ⟨first, more, hsplit, hfirst⟩ := List.eq_append_cons_of_mem hfeed
    have hpieces : splitWhere (· == '\n') first = [first] := by
      refine splitWhere_of_forall _ fun c hc => ?_
      rw [beq_eq_false_iff_ne]
      exact fun heq => hfirst (heq ▸ hc)
    refine ⟨first, (splitWhere (· == '\n') more).map trimStart, ?_, .inr ⟨more, hsplit⟩⟩
    rw [linesOf, hsplit, splitWhere_append _ _ (by rfl), hpieces]
    rfl
  · exact ⟨text.toList, [], linesOf_of_oneLine hfeed, .inl rfl⟩

theorem Statement.Loud.trimStart {cs : List Char} (h : Statement.Loud cs) :
    Text.trimStart cs = cs := by
  obtain ⟨start, name, expr, rfl, ⟨hne, hname⟩, hstart⟩ := h
  obtain ⟨c, rest, rfl⟩ := List.exists_cons_of_ne_nil hne
  have hc := isBlank_of_isNameChar (hname c List.mem_cons_self)
  rcases hstart with rfl | ⟨rfl | rfl, -⟩
  · rfl
  · exact List.dropWhile_cons_of_neg (by simp [hc])
  · rfl

/-- A quiet text as a whole writes nothing either. -/
theorem Quiet.not_loud {text : String} (h : Quiet text) : ¬Statement.Loud text.toList := by
  intro hloud
  obtain ⟨first, rest, hlines, htext⟩ := linesOf_eq_cons text
  have hfirst : Statement.Loud first := by
    rcases htext with heq | ⟨more, heq⟩
    · exact heq ▸ hloud
    · exact (heq ▸ hloud).firstLine
  exact h (Text.trimStart first) (hlines ▸ List.mem_cons_self) (hfirst.trimStart.symm ▸ hfirst)

theorem Quiet.keeps {text : String} (h : Quiet text) (hexec : Executes eval text s s') :
    Keeps W s s' := by
  unfold Executes at hexec
  split at hexec
  · next statement hsingle =>
    subst hexec
    have hread : statement = Statement.read text.toList := by
      unfold Statement.single? at hsingle
      split at hsingle
      · next slot expr hread => exact (Option.some.inj hsingle).symm.trans hread.symm
      · split at hsingle
        · exact nomatch hsingle
        · exact (Option.some.inj hsingle).symm
    rw [hread]
    exact keeps_of_not_loud h.not_loud s
  · induction hexec with
    | refl => exact .refl W s
    | tail _ hstep ih =>
      obtain ⟨line, hline, rfl⟩ := hstep
      exact ih.trans (keeps_of_not_loud (h line hline) _)

end Keeps

attribute [irreducible] Quiet

end JokerRules
