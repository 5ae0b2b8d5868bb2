import JokerRules.Proofs.Tokens

/-! Tokens of names, literals and texts that are put together from parts. The tokens of such a text
are those of its parts, unless two names come to stand side by side. -/

namespace JokerRules.Tokens

universe u

open Text Brackets

theorem tokensFrom_name {cs : List Char} (hne : cs ≠ []) (h : ∀ c ∈ cs, isNameChar c = true) :
    tokensFrom .code cs = [cs] := by
  induction cs with
  | nil => exact absurd rfl hne
  | cons c cs ih =>
    obtain ⟨hc, hcs⟩ := List.forall_mem_cons.mp h
    have hmode : nextMode .code (classOf c) = .code := by
      rw [classOf_plain (by rw [isNameChar_iff] at hc; simp; omega)]
      rfl
    have hblank := isBlank_of_isNameChar hc
    cases cs with
    | nil => simp [tokensFrom, goesOn, hmode, hblank]
    | cons d cs =>
      have hgoes : goesOn .code c (some d) = true := by simp [goesOn, hc, hcs d (by simp)]
      rw [tokensFrom, hmode, ih (by simp) hcs, List.head?_cons, hgoes]
      rfl

theorem tokens_name {text : String} (hne : text ≠ "") (h : ∀ c ∈ text.toList, isNameChar c = true) :
    tokens text = [text.toList] :=
  tokensFrom_name (by simpa using hne) h

theorem tokensFrom_inside {mode : Mode} {c : Char} {cs : List Char} {t : Token}
    (hmode : nextMode mode (classOf c) ≠ .code) (h : tokensFrom (nextMode mode (classOf c)) cs = [t]) :
    tokensFrom mode (c :: cs) = [c :: t] := by
  simp [tokensFrom, goesOn, hmode, h, extendFirst]

/-- An escaped character goes on with its literal. -/
theorem tokensFrom_escapeChar (d : Delimiter) (c : Char) {cs : List Char} {t : Token}
    (h : tokensFrom (.literal d) cs = [t]) :
    tokensFrom (.literal d) (escapeChar d.char c ++ cs) = [escapeChar d.char c ++ t] := by
  have hescaped : ∀ x, tokensFrom (.literal d) ('\\' :: x :: cs) = ['\\' :: x :: t] := by
    intro x
    have hx : nextMode (.escape d) (classOf x) = .literal d := rfl
    have hrest : tokensFrom (.escape d) (x :: cs) = [x :: t] :=
      tokensFrom_inside (by simp [hx]) (by rw [hx]; exact h)
    have hback : nextMode (.literal d) (classOf '\\') = .escape d := rfl
    exact tokensFrom_inside (by simp [hback]) hrest
  unfold escapeChar
  split
  · exact hescaped _
  split
  · exact hescaped _
  split
  · exact hescaped _
  split
  · exact hescaped _
  split
  · exact hescaped _
  · next hback _ _ _ hdelimiter =>
    have hc : nextMode (.literal d) (classOf c) = .literal d := by
      cases hclass : classOf c with
      | backslash => exact absurd (eq_of_classOf_backslash hclass) hback
      | quote e =>
        have hde : d ≠ e := by
          rintro rfl
          exact hdelimiter (eq_of_classOf_quote hclass)
        simp [nextMode, hde]
      | _ => rfl
    exact tokensFrom_inside (by simp [hc]) (by rw [hc]; exact h)

theorem tokensFrom_escaped (d : Delimiter) (cs : List Char) :
    tokensFrom (.literal d) (cs.flatMap (escapeChar d.char) ++ [d.char]) =
      [cs.flatMap (escapeChar d.char) ++ [d.char]] := by
  induction cs with
  | nil => cases d <;> decide
  | cons c cs ih =>
    rw [List.flatMap_cons, List.append_assoc]
    exact tokensFrom_escapeChar d c ih

theorem tokens_quoteWith (d : Delimiter) (s : String) :
    tokens (quoteWith d.char s) = [(quoteWith d.char s).toList] := by
  have hopen : nextMode .code (classOf d.char) = .literal d := by
    rw [classOf_char]
    rfl
  rw [tokens, quoteWith, String.toList_ofList]
  exact tokensFrom_inside (by simp [hopen]) (by rw [hopen]; exact tokensFrom_escaped d s.toList)

theorem tokens_singleQuoted (s : String) : tokens (singleQuoted s) = [(singleQuoted s).toList] :=
  tokens_quoteWith .single s

section Template

variable {P : String → Sort u}

def isComplete : Part P → Bool
  | .fixed cs => modeAfter .code cs = .code
  | .hole _ _ => true

/-- Whether two parts can stand side by side without making one name out of two, whatever the holes
are filled with. -/
def apart : Part P → Part P → Bool
  | .fixed xs, .fixed ys => xs.getLast?.any (!isNameChar ·) || ys.head?.any (!isNameChar ·)
  | .fixed xs, .hole _ _ => xs.getLast?.any (!isNameChar ·)
  | .hole _ _, .fixed ys => ys.head?.any (!isNameChar ·)
  | .hole _ _, .hole _ _ => false

/-- Whether all literals end in their part and no name reaches into the next one. -/
def fits : List (Part P) → Bool
  | [] => true
  | [p] => isComplete p
  | p :: q :: ps => isComplete p && apart p q && fits (q :: ps)

theorem cut_of_apart {p q : Part P} (h : apart p q = true) (rest : List Char) :
    p.text.toList.getLast?.any isNameChar = false ∨
      (q.text.toList ++ rest).head?.any isNameChar = false := by
  have hlast : ∀ {cs : List Char}, cs.getLast?.any (!isNameChar ·) = true →
      cs.getLast?.any isNameChar = false := by
    intro cs hcs
    obtain ⟨c, hc, hname⟩ := (Option.any_eq_true _ _).mp hcs
    simpa [hc] using hname
  have hfirst : ∀ {cs : List Char}, cs.head?.any (!isNameChar ·) = true →
      (cs ++ rest).head?.any isNameChar = false := by
    intro cs hcs
    obtain ⟨c, hc, hname⟩ := (Option.any_eq_true _ _).mp hcs
    simpa [List.head?_append, hc] using hname
  cases p with
  | fixed xs =>
    cases q with
    | fixed ys =>
      rw [apart, Bool.or_eq_true] at h
      rw [Part.text, Part.text, String.toList_ofList, String.toList_ofList]
      exact h.imp hlast hfirst
    | hole u hu =>
      rw [Part.text, String.toList_ofList]
      exact .inl (hlast h)
  | hole t ht =>
    cases q with
    | fixed ys =>
      rw [Part.text, Part.text, String.toList_ofList]
      exact .inr (hfirst h)
    | hole u hu => cases h

variable (hP : ∀ text, P text → Complete text)

include hP

theorem complete_part {p : Part P} (h : isComplete p = true) : Complete p.text := by
  cases p with
  | fixed cs =>
    rw [Complete, Part.text, String.toList_ofList]
    exact of_decide_eq_true h
  | hole t ht => exact hP t ht

theorem tokensFrom_parts {ps : List (Part P)} (h : fits ps = true) :
    tokensFrom .code (ps.flatMap (·.text.toList)) = ps.flatMap (tokens ·.text) ∧
      modeAfter .code (ps.flatMap (·.text.toList)) = .code := by
  induction ps with
  | nil => exact ⟨rfl, rfl⟩
  | cons p ps ih =>
    cases ps with
    | nil => simpa using ⟨rfl, complete_part hP h⟩
    | cons q ps =>
      simp only [fits, Bool.and_eq_true] at h
      obtain ⟨⟨hp, hapart⟩, hps⟩ := h
      have hcomplete : modeAfter .code p.text.toList = .code := complete_part hP hp
      obtain ⟨htokens, hmode⟩ := ih hps
      constructor
      · have hcut := cut_of_apart hapart (ps.flatMap (·.text.toList))
        rw [List.flatMap_cons]
        exact (tokensFrom_append hcomplete hcut).trans (congrArg (tokens p.text ++ ·) htokens)
      · rw [List.flatMap_cons, modeAfter_append, hcomplete]
        exact hmode

theorem tokens_template (ps : List (Part P)) (h : fits ps = true) :
    tokens (Part.template ps) = ps.flatMap (tokens ·.text) := by
  rw [tokens, Part.toList_template]
  exact (tokensFrom_parts hP h).1

theorem complete_template (ps : List (Part P)) (h : fits ps = true) :
    Complete (Part.template ps) := by
  rw [Complete, Part.toList_template]
  exact (tokensFrom_parts hP h).2

end Template

theorem plain_name {text : String} (h : ∀ c ∈ text.toList, isNameChar c = true) : Plain text := by
  refine plain_iff.mpr fun c hc => classOf_plain ?_
  have hrange := isNameChar_iff.mp (h c hc)
  simp only [List.mem_cons, List.not_mem_nil, or_false]
  omega

theorem complete_name {text : String} (h : ∀ c ∈ text.toList, isNameChar c = true) : Complete text :=
  complete_of_neutral (plain_name h).neutral

def slotPath : List Token :=
  ["card", ".", "ability", ".", "extra", "."].map String.toList

theorem tokens_read {name : String} (hne : name ≠ "") (h : ∀ c ∈ name.toList, isNameChar c = true) :
    tokens (Slot.read name) = slotPath ++ [name.toList] := by
  have hparts : tokens (Slot.read name) = _ :=
    tokens_template (P := Complete) (fun _ h => h) [.fixed _, .hole _ (complete_name h)] rfl
  rw [hparts, List.flatMap_cons, List.flatMap_singleton, tokens_name hne h]
  rfl

theorem complete_read {name : String} (h : ∀ c ∈ name.toList, isNameChar c = true) :
    Complete (Slot.read name) :=
  complete_template (P := Complete) (fun _ h => h) [.fixed _, .hole _ (complete_name h)] rfl

end JokerRules.Tokens
