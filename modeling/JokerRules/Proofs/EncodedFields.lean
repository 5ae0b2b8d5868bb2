import JokerRules.Encoding
import Mathlib.Data.List.Basic

/-! Encodings by their fields. The parsers take one field after another from the front of a text;
what they find is what stands between the bars. -/

namespace JokerRules

open Text

theorem trimEnd_cons {c : Char} (hc : isBlank c = false) (cs : List Char) :
    trimEnd (c :: cs) = c :: trimEnd cs := by
  unfold trimEnd
  rw [List.reverse_cons, List.dropWhile_append]
  split
  · next h => simp_all
  · simp

namespace Encoding

def fieldNumber? (field : List Char) : Option Binary64 :=
  Binary64.read? (trim (String.ofList field))

def fieldD (fields : List (List Char)) (i : Nat) (default : Int) : Binary64 :=
  (fields[i]?.bind fieldNumber?).getD (.ofInt default)

example : fieldD ["ante".toList, " ".toList, "inf".toList, "2 ".toList] 1 1 = .ofInt 1 ∧
    fieldD ["ante".toList, " ".toList, "inf".toList, "2 ".toList] 2 0 = .ofInt 0 ∧
    fieldD ["ante".toList, " ".toList, "inf".toList, "2 ".toList] 3 0 = .ofInt 2 := by
  decide +kernel

def stateName (fields : List (List Char)) : String :=
  trim (String.ofList (fields.headD []))

/-- What follows a mark at the front of a text. -/
def afterMark? (mark text : String) : Option (List Char) :=
  if startsWith mark text then some (text.toList.drop mark.length) else none

/-- The encoding that a text is by its fields between bars. -/
def ofFields (raw : String) : Except EncodingError Encoding :=
  let text := trim raw
  match afterMark? gameStateMark text, afterMark? rangeMark text with
  | some rest, _ =>
    let fields := rest.splitOn '|'
    if stateName fields = "" then .error ⟨text, 8, "game variable id"⟩
    else .ok (gameState (stateName fields) (fieldD fields 1 1) (fieldD fields 2 0))
  | none, some rest =>
    let fields := rest.splitOn '|'
    .ok (range (fieldD fields 0 1) (fieldD fields 1 5))
  | none, none => .error ⟨text, 0, "GAMEVAR: or RANGE: encoding"⟩

def barred (fields : List (List Char)) : List Char :=
  fields.flatMap ('|' :: ·)

theorem barred_cons (field : List Char) (fields : List (List Char)) :
    barred (field :: fields) = '|' :: (field ++ barred fields) :=
  rfl

theorem exists_fields (cs : List Char) :
    ∃ field fields, cs.splitOn '|' = field :: fields ∧ cs = field ++ barred fields ∧
      ∀ f ∈ field :: fields, '|' ∉ f := by
  induction cs with
  | nil => exact ⟨[], [], rfl, rfl, by simp⟩
  | cons c cs ih =>
    obtain ⟨field, fields, hsplit, hcs, hbars⟩ := ih
    by_cases hc : c = '|'
    · subst hc
      refine ⟨[], field :: fields, ?_, by rw [hcs]; rfl, ?_⟩
      · rw [← hsplit, List.splitOn, List.splitOnP_cons_eq_if_modifyHead]
        simp [List.splitOn]
      · simpa using hbars
    · refine ⟨c :: field, fields, ?_, by rw [hcs]; rfl, ?_⟩
      · rw [List.splitOn, List.splitOnP_cons_eq_if_modifyHead, ← List.splitOn, hsplit]
        simp [hc]
      · have hc : '|' ≠ c := Ne.symm hc
        simpa [hc] using hbars

section Parsers

variable {α β : Type} {p : Parser α} {next : α → Parser β} {cs rest : List Char}

theorem bind_done {a : α} (h : p cs = .done a rest) : (p >>= next) cs = next a rest := by
  simp [bind, h]

theorem bind_failed {isFinal : Bool} {expected : List String}
    (h : p cs = .failed isFinal rest expected) : (p >>= next) cs = .failed isFinal rest expected := by
  simp [bind, h]

variable {field : List Char}

theorem takeWhile_field (h : '|' ∉ field) (fields : List (List Char)) :
    (field ++ barred fields).takeWhile (fun c => !(c == '|')) = field ∧
      (field ++ barred fields).dropWhile (fun c => !(c == '|')) = barred fields := by
  have hfield : ∀ c ∈ field, (!(c == '|')) = true := by
    intro c hc
    have hne : c ≠ '|' := fun heq => h (heq ▸ hc)
    simp [hne]
  rw [List.takeWhile_append_of_pos hfield, List.dropWhile_append_of_pos hfield]
  cases fields with
  | nil => simp [barred]
  | cons next fields => simp [barred_cons]

theorem number_field (h : '|' ∉ field) (fields : List (List Char)) :
    number (field ++ barred fields) = .done (fieldNumber? field) (barred fields) := by
  obtain ⟨htake, hdrop⟩ := takeWhile_field h fields
  have htaken : Parser.takeTill (· == '|') 0 (field ++ barred fields) = .done field (barred fields) := by
    simp [Parser.takeTill, htake, hdrop]
  exact bind_done htaken

theorem optional_barredNumber (h : ∀ f ∈ fields, '|' ∉ f) :
    barredNumber.optional (barred fields) =
      .done (fields.head?.map fieldNumber?) (barred fields.tail) := by
  cases fields with
  | nil => rfl
  | cons field fields =>
    have hfixed : Parser.fixed "|" (barred (field :: fields)) = .done () (field ++ barred fields) := rfl
    have hnumber : barredNumber (barred (field :: fields)) =
        .done (fieldNumber? field) (barred fields) :=
      (bind_done hfixed).trans (number_field (h field (by simp)) fields)
    simp [Parser.optional, hnumber]

/-- The name of a state is not blank; whether it is missing or made of blanks is no difference. -/
theorem stateId_field (h : '|' ∉ field) (fields : List (List Char)) :
    stateId (field ++ barred fields) =
      if stateName (field :: fields) = "" then .failed false (field ++ barred fields) []
      else .done (stateName (field :: fields)) (barred fields) := by
  obtain ⟨htake, hdrop⟩ := takeWhile_field h fields
  have hname : stateName (field :: fields) = trim (String.ofList field) := rfl
  have hempty : trim (String.ofList []) = "" := rfl
  have hcheck : (Parser.takeTill (· == '|') 1).check (fun f => trim (String.ofList f) != "")
      (field ++ barred fields) = if trim (String.ofList field) = "" then
        .failed false (field ++ barred fields) [] else .done field (barred fields) := by
    simp only [Parser.check, Parser.takeTill, htake, hdrop]
    by_cases hnil : field.length < 1
    · obtain rfl : field = [] := List.length_eq_zero_iff.mp (by omega)
      simp [hempty]
    · by_cases hblank : trim (String.ofList field) = "" <;> simp [hnil, hblank]
  rw [hname]
  by_cases hblank : trim (String.ofList field) = ""
  · rw [if_pos hblank] at hcheck ⊢
    exact bind_failed hcheck
  · rw [if_neg hblank] at hcheck ⊢
    exact bind_done hcheck

end Parsers

theorem fieldD_tail (fields : List (List Char)) (i : Nat) (default : Int) :
    fieldD fields.tail i default = fieldD fields (i + 1) default := by
  simp [fieldD]

theorem fieldD_cons (field : List Char) (fields : List (List Char)) (i : Nat) (default : Int) :
    fieldD (field :: fields) (i + 1) default = fieldD fields i default := by
  simp [fieldD]

theorem getD_head? (fields : List (List Char)) (default : Int) :
    (fields.head?.map fieldNumber?).join.getD (.ofInt default) = fieldD fields 0 default := by
  cases fields <;> simp [fieldD]

section Marks

variable {mark text : String} {rest : List Char}

theorem fixed_done (h : afterMark? mark text = some rest) :
    Parser.fixed mark text.toList = .done () rest := by
  obtain ⟨hmark, rfl⟩ := Option.ite_some_none_eq_some.mp h
  exact if_pos hmark

theorem fixed_failed (h : afterMark? mark text = none) :
    Parser.fixed mark text.toList = .failed false text.toList [] := by
  refine if_neg fun hmark => ?_
  have hsome : afterMark? mark text = some _ := if_pos hmark
  rw [h] at hsome
  exact nomatch hsome

theorem eq_append_of_afterMark? (h : afterMark? mark text = some rest) :
    text = mark ++ String.ofList rest := by
  obtain ⟨hmark, rfl⟩ := Option.ite_some_none_eq_some.mp h
  obtain ⟨rest, hrest⟩ := List.isPrefixOf_iff_prefix.mp hmark
  apply String.toList_inj.mp
  have hlength : mark.length = mark.toList.length := String.length_toList.symm
  rw [hlength, ← hrest, List.drop_left, String.toList_append, String.toList_ofList]

theorem gameStateForm_of_mark (h : afterMark? gameStateMark text = some rest) :
    gameStateForm text.toList =
      if stateName (rest.splitOn '|') = "" then .failed true rest ["game variable id"]
      else .done (gameState (stateName (rest.splitOn '|')) (fieldD (rest.splitOn '|') 1 1)
        (fieldD (rest.splitOn '|') 2 0)) [] := by
  obtain ⟨field, fields, hsplit, hrest, hbars⟩ := exists_fields rest
  obtain ⟨hfield, hfields⟩ := List.forall_mem_cons.mp hbars
  have htail : ∀ f ∈ fields.tail, '|' ∉ f := fun f hf => hfields f (List.mem_of_mem_tail hf)
  have hid := stateId_field hfield fields
  rw [← hrest, ← hsplit] at hid
  by_cases hname : stateName (rest.splitOn '|') = ""
  · rw [if_pos hname] at hid ⊢
    have hfailed : stateId.commit.expecting "game variable id" rest =
        .failed true rest ["game variable id"] := by
      simp [Parser.expecting, Parser.commit, hid]
    exact (bind_done (fixed_done h)).trans (bind_failed hfailed)
  · rw [if_neg hname] at hid ⊢
    have hdone : stateId.commit.expecting "game variable id" rest =
        .done (stateName (rest.splitOn '|')) (barred fields) := by
      simp [Parser.expecting, Parser.commit, hid]
    rw [gameStateForm, bind_done (fixed_done h), bind_done hdone,
      bind_done (optional_barredNumber hfields), bind_done (optional_barredNumber htail), hsplit,
      getD_head?, getD_head?, fieldD_tail, fieldD_cons, fieldD_cons]
    rfl

theorem rangeForm_of_mark (h : afterMark? rangeMark text = some rest) :
    rangeForm text.toList =
      .done (range (fieldD (rest.splitOn '|') 0 1) (fieldD (rest.splitOn '|') 1 5)) [] := by
  obtain ⟨field, fields, hsplit, hrest, hbars⟩ := exists_fields rest
  obtain ⟨hfield, hfields⟩ := List.forall_mem_cons.mp hbars
  have hnumber := number_field hfield fields
  rw [← hrest] at hnumber
  have hfirst : (fieldNumber? field).getD (.ofInt 1) = fieldD (field :: fields) 0 1 := by
    simp [fieldD]
  rw [rangeForm, bind_done (fixed_done h), bind_done hnumber,
    bind_done (optional_barredNumber hfields), hsplit, hfirst, getD_head?, fieldD_cons]
  rfl

end Marks

theorem parse_eq_ofFields (raw : String) : parse raw = ofFields raw := by
  unfold parse ofFields
  generalize trim raw = text
  cases hstate : afterMark? gameStateMark text with
  | some rest =>
    have hform := gameStateForm_of_mark hstate
    have htext := eq_append_of_afterMark? hstate
    have hoffset : text.utf8ByteSize - (String.ofList rest).utf8ByteSize = 8 := by
      rw [htext, String.utf8ByteSize_append, Nat.add_sub_cancel]
      decide
    by_cases hname : stateName (rest.splitOn '|') = ""
    · rw [if_pos hname] at hform
      simp [Parser.whole, form, Parser.expecting, Parser.orElse, hform, hname, hoffset, hstate]
    · rw [if_neg hname] at hform
      simp [Parser.whole, form, Parser.expecting, Parser.orElse, hform, hname, hstate]
  | none =>
    have hgiven : gameStateForm text.toList = .failed false text.toList [] :=
      bind_failed (fixed_failed hstate)
    cases hrange : afterMark? rangeMark text with
    | some rest =>
      simp [Parser.whole, form, Parser.expecting, Parser.orElse, hgiven, rangeForm_of_mark hrange,
        hstate, hrange]
    | none =>
      have hfailed : rangeForm text.toList = .failed false text.toList [] :=
        bind_failed (fixed_failed hrange)
      simp [Parser.whole, form, Parser.expecting, Parser.orElse, hgiven, hfailed, hstate, hrange]

theorem trimEnd_append {cs : List Char} (h : ∀ c ∈ cs, isBlank c = false) (rest : List Char) :
    trimEnd (cs ++ rest) = cs ++ trimEnd rest := by
  induction cs with
  | nil => rfl
  | cons c cs ih =>
    rw [List.cons_append, trimEnd_cons (h c (by simp)), ih fun d hd => h d (by simp [hd])]
    rfl

/-- A mark has no blanks, so trimming the end takes nothing from it. -/
theorem startsWith_trim_iff {mark : String} (hmark : mark.toList.all (!isBlank ·) = true)
    (raw : String) :
    startsWith mark (trim raw) = true ↔
      startsWith mark (String.ofList (trimStart raw.toList)) = true := by
  have hsolid : ∀ c ∈ mark.toList, isBlank c = false := by simpa using hmark
  simp only [startsWith, List.isPrefixOf_iff_prefix, trim, String.toList_ofList]
  constructor
  · intro h
    refine h.trans ?_
    have hsuffix := List.dropWhile_suffix isBlank (l := (trimStart raw.toList).reverse)
    exact List.reverse_suffix.mp (by rwa [trimEnd, List.reverse_reverse])
  · rintro ⟨rest, hrest⟩
    exact ⟨trimEnd rest, by rw [← hrest, trimEnd_append hsolid]⟩

theorem isMarked_iff (raw : String) : isMarked raw = true ↔
    startsWith gameStateMark (trim raw) = true ∨ startsWith rangeMark (trim raw) = true := by
  rw [startsWith_trim_iff (by decide), startsWith_trim_iff (by decide), isMarked, Bool.or_eq_true]

/-- A reading of no state. -/
def Nameless (raw : String) : Prop :=
  ∃ rest, afterMark? gameStateMark (trim raw) = some rest ∧ stateName (rest.splitOn '|') = ""

theorem isSome_afterMark? (mark text : String) :
    (afterMark? mark text).isSome = startsWith mark text := by
  unfold afterMark?
  split <;> simp_all

theorem exists_parse_iff (raw : String) :
    (∃ encoding, parse raw = .ok encoding) ↔ isMarked raw = true ∧ ¬ Nameless raw := by
  rw [parse_eq_ofFields, isMarked_iff, ← isSome_afterMark?, ← isSome_afterMark?]
  simp only [ofFields, Nameless]
  cases afterMark? gameStateMark (trim raw) with
  | some rest =>
    by_cases hname : stateName (rest.splitOn '|') = ""
    · simp [hname]
    · simp [hname]
  | none =>
    cases afterMark? rangeMark (trim raw) with
    | some rest => simp
    | none => simp

theorem isMarked_of_parse {raw : String} {encoding : Encoding} (h : parse raw = .ok encoding) :
    isMarked raw = true :=
  ((exists_parse_iff raw).mp ⟨encoding, h⟩).1

/-- A text is read by its fields between bars. It claims to be an encoding if, once trimmed, it has
one of the marks, and it is one unless it is a reading that names no state. -/
theorem parse_reads_fields (raw : String) :
    parse raw = ofFields raw ∧
    (isMarked raw = true ↔
      startsWith gameStateMark (trim raw) = true ∨ startsWith rangeMark (trim raw) = true) ∧
    ((∃ encoding, parse raw = .ok encoding) ↔ isMarked raw = true ∧ ¬ Nameless raw) :=
  ⟨parse_eq_ofFields raw, isMarked_iff raw, exists_parse_iff raw⟩

end Encoding

end JokerRules
