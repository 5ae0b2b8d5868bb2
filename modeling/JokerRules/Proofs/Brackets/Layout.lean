import JokerRules.Proofs.Brackets

/-! Layout and templates of neutral texts. Indenting and joining lines keeps texts neutral,
and whether a text that is put together from parts is neutral is found out by scanning its
fixed parts. -/

namespace JokerRules.Brackets

open Text

theorem step_blank {c : Char} (h : isBlank c = true) (bs : List Bracket) :
    step ⟨.code, bs⟩ (classOf c) = some ⟨.code, bs⟩ := by
  have hclass : classOf c = .plain ∨ classOf c = .lineEnd := by
    simp only [isBlank, Bool.or_eq_true, Bool.and_eq_true, decide_eq_true_eq, beq_iff_eq] at h
    unfold classOf
    split <;> first | omega | simp
  rcases hclass with hc | hc <;> simp [step, hc]

theorem scan_blank {cs : List Char} (h : ∀ c ∈ cs, isBlank c = true) (bs : List Bracket) :
    scan ⟨.code, bs⟩ cs = some ⟨.code, bs⟩ := by
  induction cs with
  | nil => rfl
  | cons c cs ih =>
    rw [scan, step_blank (h c (by simp)), Option.bind_some]
    exact ih (fun d hd => h d (by simp [hd]))

theorem scan_indentLine (depth : Nat) (line : List Char) (bs : List Bracket) :
    scan ⟨.code, bs⟩ (indentLine depth line) = scan ⟨.code, bs⟩ line := by
  unfold indentLine
  split
  · next h => rw [scan_blank (List.all_eq_true.mp h)]; rfl
  · have hpad : scan ⟨.code, bs⟩ (padding depth) = some ⟨.code, bs⟩ := by
      apply scan_blank
      intro c hc
      rw [List.eq_of_mem_replicate hc]
      rfl
    rw [scan_append, hpad, Option.bind_some]

theorem step_lineEnd (s : Scan) :
    step s .lineEnd = if s.mode = .code then some s else none := by
  obtain ⟨mode, bs⟩ := s
  cases mode <;> simp [step]

/-- Lines joined by line feeds are scanned one after the other, each from outside literals. -/
theorem scan_joined_congr {ls ms : List (List Char)}
    (h : List.Forall₂ (fun l m => ∀ bs, scan ⟨.code, bs⟩ l = scan ⟨.code, bs⟩ m) ls ms)
    (bs : List Bracket) :
    scan ⟨.code, bs⟩ (['\n'].intercalate ls) = scan ⟨.code, bs⟩ (['\n'].intercalate ms) := by
  induction h generalizing bs with
  | nil => rfl
  | @cons l m ls ms hlm htail ih =>
    cases htail with
    | nil => simpa using hlm bs
    | @cons l' m' ls ms h' htail =>
      rw [List.intercalate_cons_cons, List.intercalate_cons_cons, List.append_assoc,
        List.append_assoc, scan_append, scan_append, hlm bs]
      cases scan ⟨.code, bs⟩ m with
      | none => rfl
      | some s =>
        obtain ⟨mode, cs⟩ := s
        cases mode with
        | code => exact ih cs
        | literal d => rfl
        | escape d => rfl

theorem scan_lineEnd_cons {c : Char} (hc : classOf c = .lineEnd) (s r : Scan) (cs : List Char) :
    scan s (c :: cs) = some r ↔ s.mode = .code ∧ scan s cs = some r := by
  rw [scan, hc, step_lineEnd]
  by_cases h : s.mode = .code <;> simp [h]

theorem scan_emptyLine (s : Scan) (ls : List (List Char)) (bs : List Bracket) :
    scan s (['\n'].intercalate ([] :: ls)) = some ⟨.code, bs⟩ ↔
      s.mode = .code ∧ scan s (['\n'].intercalate ls) = some ⟨.code, bs⟩ := by
  cases ls with
  | nil =>
    simp only [List.intercalate_singleton, List.intercalate_nil, scan, Option.some.injEq]
    exact ⟨fun h => ⟨by rw [h], h⟩, fun h => h.2⟩
  | cons l ls =>
    rw [List.intercalate_cons_cons]
    exact scan_lineEnd_cons rfl s _ _

/-- Cutting a text into lines and joining them again loses nothing but a last line end. -/
theorem scan_lines (s : Scan) (cs : List Char) (bs : List Bracket) :
    scan s (['\n'].intercalate (lines cs)) = some ⟨.code, bs⟩ ↔ scan s cs = some ⟨.code, bs⟩ := by
  fun_induction lines cs generalizing s with
  | case1 => rfl
  | case2 cs ih => rw [scan_emptyLine, scan_lineEnd_cons rfl, ih]
  | case3 cs ih =>
    rw [scan_emptyLine, scan_lineEnd_cons rfl, scan_lineEnd_cons rfl, ih]
    tauto
  | case4 c cs _ _ ih =>
    have hjoin : ['\n'].intercalate (extendFirst c (lines cs)) =
        c :: ['\n'].intercalate (lines cs) := by
      cases lines cs <;> simp [extendFirst]
    rw [hjoin, scan, scan]
    cases step s (classOf c) with
    | none => simp
    | some t => exact ih t

/-- Indentation is invisible to scans that start and end outside literals. -/
theorem scan_indent (depth : Nat) (text : String) (bs cs : List Bracket) :
    scan ⟨.code, bs⟩ (indent depth text).toList = some ⟨.code, cs⟩ ↔
      scan ⟨.code, bs⟩ text.toList = some ⟨.code, cs⟩ := by
  have htext : (indent depth text).toList =
      ['\n'].intercalate ((lines text.toList).map (indentLine depth)) := by
    simp [indent, unlines, String.toList_intercalate, Function.comp_def]
  have hlines : List.Forall₂ (fun l m => ∀ bs, scan ⟨.code, bs⟩ l = scan ⟨.code, bs⟩ m)
      ((lines text.toList).map (indentLine depth)) (lines text.toList) := by
    rw [List.forall₂_map_left_iff, List.forall₂_same]
    exact fun l _ => scan_indentLine depth l
  rw [htext, scan_joined_congr hlines, scan_lines]

theorem Neutral.indent {text : String} (h : Neutral text) (depth : Nat) :
    Neutral (Text.indent depth text) :=
  neutral_iff.mpr ((scan_indent depth text [] []).mpr (h.scan []))

theorem neutral_intercalate {sep : String} (hsep : Neutral sep) {texts : List String}
    (h : ∀ t ∈ texts, Neutral t) : Neutral (sep.intercalate texts) := by
  refine neutral_iff.mpr ?_
  rw [WellBracketed, String.toList_intercalate]
  induction texts with
  | nil => rfl
  | cons t texts ih =>
    have ht : Neutral t := h t (by simp)
    have htexts := ih (fun u hu => h u (by simp [hu]))
    cases texts with
    | nil => simpa using ht.scan []
    | cons u texts =>
      rw [List.map_cons, List.map_cons, List.intercalate_cons_cons, scan_append, scan_append, ht.scan,
        Option.bind_some, hsep.scan]
      exact htexts

theorem neutral_unlines {texts : List String} (h : ∀ t ∈ texts, Neutral t) :
    Neutral (unlines texts) :=
  neutral_intercalate (neutral_fixed rfl) h

/-- What may fill a hole: a neutral text, or a plain one, which may also stand inside a literal. -/
inductive Filler (text : String) : Type
  | neutral (h : Neutral text)
  | plain (h : Plain text)

abbrev CodePart := Part Filler

namespace CodePart

abbrev hole (text : String) (h : Neutral text) : CodePart :=
  Part.hole text (.neutral h)

abbrev word (text : String) (h : Plain text) : CodePart :=
  Part.hole text (.plain h)

def scan (s : Scan) : CodePart → Option Scan
  | Part.fixed cs => Brackets.scan s cs
  | Part.hole _ (.neutral _) => if s.mode = .code then some s else none
  | Part.hole _ (.plain _) =>
    match s.mode with
    | .escape _ => none
    | _ => some s

theorem scan_text {p : CodePart} {s t : Scan} (h : scan s p = some t) :
    Brackets.scan s p.text.toList = some t := by
  obtain ⟨mode, bs⟩ := s
  rcases p with cs | ⟨u, ⟨hu⟩ | ⟨hu⟩⟩
  · simpa [scan] using h
  · cases mode with
    | code =>
      cases h
      exact hu.scan bs
    | literal d => simp [scan] at h
    | escape d => simp [scan] at h
  · cases mode with
    | code =>
      cases h
      exact scan_plain (plain_iff.mp hu) (by simp)
    | literal d =>
      cases h
      exact scan_plain (plain_iff.mp hu) (by simp)
    | escape d => simp [scan] at h

end CodePart

/-- The fixed parts show whether the text of a template is neutral. -/
def isNeutral (ps : List CodePart) : Bool :=
  Part.walk CodePart.scan ⟨.code, []⟩ ps = some ⟨.code, []⟩

theorem neutral_template (ps : List CodePart) (h : isNeutral ps = true) :
    Neutral (Part.template ps) := by
  refine WellBracketed.neutral (Part.walk_sound (fun s cs t => scan s cs = some t) (fun _ => rfl)
    (fun {s t u xs ys} hxs hys => ?_) CodePart.scan_text (of_decide_eq_true h))
  rw [scan_append, hxs]
  exact hys

theorem neutral_texts (pss : List (List CodePart)) (h : pss.all isNeutral = true) :
    ∀ text ∈ pss.map Part.template, Neutral text := by
  intro text htext
  obtain ⟨ps, hps, rfl⟩ := List.mem_map.mp htext
  exact neutral_template ps (List.all_eq_true.mp h ps hps)

theorem neutral_table {entries : List String} (h : ∀ t ∈ entries, Neutral t) :
    Neutral (table entries) := by
  unfold table
  split
  · exact neutral_fixed rfl
  · have hbody : Neutral (",\n".intercalate (entries.map (Text.indent 1))) := by
      refine neutral_intercalate (neutral_fixed rfl) ?_
      simp only [List.mem_map, forall_exists_index, and_imp, forall_apply_eq_imp_iff₂]
      exact fun t ht => (h t ht).indent 1
    exact neutral_template [.fixed _, .hole _ hbody, .fixed _] rfl

theorem neutral_closure {body : String} (h : Neutral body) : Neutral (closure body) :=
  neutral_template [.fixed _, .hole _ (h.indent 1), .fixed _] rfl

end JokerRules.Brackets
