import JokerRules.Description
import Mathlib.Algebra.BigOperators.Group.List.Basic
import Mathlib.Algebra.GroupWithZero.Nat

/-! How wide texts are. A tag goes from an opening brace to the next closing brace, or to the end of
the text if there is none; what stands in tags is not seen. A line is no wider than its words and
one blank between each two, even if tags go on from word to word. -/

namespace JokerRules.Description

/-- The position lies in a tag: an opening brace stands there or before it, with no closing brace in
between. -/
def InTag (cs : List Char) (i : Nat) : Prop :=
  ∃ j ≤ i, cs[j]? = some '\x7b' ∧ ∀ k < i, j ≤ k → cs[k]? ≠ some '\x7d'

instance (cs : List Char) (i : Nat) : Decidable (InTag cs i) :=
  inferInstanceAs (Decidable (∃ j ≤ i, _))

/-- The number of characters outside tags. -/
def seenWidth (cs : List Char) : Nat :=
  (List.range cs.length).countP fun i => ¬InTag cs i

/-- The width of a line as it is seen, with tags that may go on from word to word. -/
def visibleWidth (line : String) : Nat :=
  seenWidth line.toList

/-- The width of a line by its words, with one for each blank between them. -/
def totalWidth (ws : List (List Char)) : Nat :=
  (ws.map seenWidth).sum + (ws.length - 1)

variable {c : Char} {cs ds : List Char} {i : Nat}

theorem inTag_zero_iff : InTag (c :: cs) 0 ↔ c = '\x7b' := by
  simp [InTag]

theorem inTag_succ_iff (hc : c ≠ '\x7b') : InTag (c :: cs) (i + 1) ↔ InTag cs i := by
  constructor
  · rintro ⟨j, hj, hopen, hclosed⟩
    cases j with
    | zero => exact absurd (by simpa using hopen) hc
    | succ j =>
      exact ⟨j, by omega, by simpa using hopen,
        fun k hk hjk => by simpa using hclosed (k + 1) (by omega) (by omega)⟩
  · rintro ⟨j, hj, hopen, hclosed⟩
    refine ⟨j + 1, by omega, by simpa using hopen, fun k hk hjk => ?_⟩
    obtain ⟨k, rfl⟩ := Nat.exists_eq_succ_of_ne_zero (show k ≠ 0 by omega)
    simpa using hclosed k (by omega) (by omega)

/-- A tag goes on over every character that does not close it. -/
theorem inTag_open_iff (hc : c ≠ '\x7d') :
    InTag ('\x7b' :: c :: cs) (i + 1) ↔ InTag ('\x7b' :: cs) i := by
  constructor
  · rintro ⟨j, hj, hopen, hclosed⟩
    by_cases hfirst : j ≤ 1
    · refine ⟨0, by omega, by simp, fun k hk _ => ?_⟩
      cases k with
      | zero => simp
      | succ k => simpa using hclosed (k + 2) (by omega) (by omega)
    · obtain ⟨j, rfl⟩ := Nat.exists_eq_add_of_le' (show 2 ≤ j by omega)
      refine ⟨j + 1, by omega, by simpa using hopen, fun k hk hjk => ?_⟩
      obtain ⟨k, rfl⟩ := Nat.exists_eq_succ_of_ne_zero (show k ≠ 0 by omega)
      simpa using hclosed (k + 2) (by omega) (by omega)
  · rintro ⟨j, hj, hopen, hclosed⟩
    cases j with
    | zero =>
      refine ⟨0, by omega, by simp, fun k hk _ => ?_⟩
      rcases k with _ | _ | k
      · simp
      · simpa using hc
      · simpa using hclosed (k + 1) (by omega) (by omega)
    | succ j =>
      refine ⟨j + 2, by omega, by simpa using hopen, fun k hk hjk => ?_⟩
      obtain ⟨k, rfl⟩ := Nat.exists_eq_add_of_le' (show 2 ≤ k by omega)
      simpa using hclosed (k + 1) (by omega) (by omega)

theorem inTag_closed_iff : InTag ('\x7b' :: '\x7d' :: cs) (i + 2) ↔ InTag cs i := by
  constructor
  · rintro ⟨j, hj, hopen, hclosed⟩
    rcases j with _ | _ | j
    · exact absurd rfl (hclosed 1 (by omega) (by omega))
    · simp at hopen
    · exact ⟨j, by omega, by simpa using hopen,
        fun k hk hjk => by simpa using hclosed (k + 2) (by omega) (by omega)⟩
  · rintro ⟨j, hj, hopen, hclosed⟩
    refine ⟨j + 2, by omega, by simpa using hopen, fun k hk hjk => ?_⟩
    obtain ⟨k, rfl⟩ := Nat.exists_eq_add_of_le' (show 2 ≤ k by omega)
    simpa using hclosed k (by omega) (by omega)

theorem seenWidth_cons (c : Char) (cs : List Char) :
    seenWidth (c :: cs) = (List.range cs.length).countP (fun i => ¬InTag (c :: cs) (i + 1)) +
      if c = '\x7b' then 0 else 1 := by
  simp only [seenWidth, List.length_cons, List.range_succ_eq_map, List.countP_cons, List.countP_map,
    Function.comp_def, Nat.succ_eq_add_one, inTag_zero_iff]
  split <;> simp_all

theorem seenWidth_seen (hc : c ≠ '\x7b') : seenWidth (c :: cs) = seenWidth cs + 1 := by
  simp only [seenWidth_cons c, inTag_succ_iff hc, if_neg hc]
  rfl

theorem seenWidth_open (hc : c ≠ '\x7d') :
    seenWidth ('\x7b' :: c :: cs) = seenWidth ('\x7b' :: cs) := by
  simp only [seenWidth_cons '\x7b' (c :: cs), inTag_open_iff hc, if_true, Nat.add_zero]
  rfl

theorem seenWidth_closed : seenWidth ('\x7b' :: '\x7d' :: cs) = seenWidth cs := by
  have hclosing : InTag ('\x7b' :: '\x7d' :: cs) 1 := ⟨0, by omega, rfl, by simp⟩
  simp only [seenWidth_cons '\x7b' ('\x7d' :: cs), List.length_cons, List.range_succ_eq_map,
    List.countP_cons, List.countP_map, Function.comp_def, Nat.succ_eq_add_one, Nat.zero_add, hclosing,
    inTag_closed_iff]
  simp [seenWidth]

/-- The code counts the characters outside tags. -/
theorem widthFrom_eq (cs : List Char) :
    widthFrom false cs = seenWidth cs ∧ widthFrom true cs = seenWidth ('\x7b' :: cs) := by
  induction cs with
  | nil => exact ⟨rfl, by decide⟩
  | cons c cs ih =>
    obtain ⟨hout, hin⟩ := ih
    refine ⟨?_, ?_⟩
    · by_cases hopen : c = '\x7b'
      · simp [widthFrom, hopen, hin]
      · simp [widthFrom, hopen, hout, seenWidth_seen hopen]
    · by_cases hclose : c = '\x7d'
      · simp [widthFrom, hclose, hout, seenWidth_closed]
      · have hstays : (c != '\x7d') = true := by simpa using hclose
        simp [widthFrom, hstays, seenWidth_open hclose, hin]

theorem wordWidth_eq (w : List Char) : wordWidth w = seenWidth w :=
  (widthFrom_eq w).1

theorem seenWidth_open_le (cs : List Char) : seenWidth ('\x7b' :: cs) ≤ seenWidth cs := by
  induction cs with
  | nil => decide
  | cons c cs ih =>
    by_cases hclose : c = '\x7d'
    · subst hclose
      rw [seenWidth_closed, seenWidth_seen (by decide)]
      omega
    · rw [seenWidth_open hclose]
      by_cases hopen : c = '\x7b'
      · exact Nat.le_of_eq (by rw [hopen])
      · rw [seenWidth_seen hopen]
        omega

/-- Texts one after the other are at most as wide as they are alone: a tag that the first one leaves
open can only hide more of the second. -/
theorem seenWidth_append_le (cs ds : List Char) :
    seenWidth (cs ++ ds) ≤ seenWidth cs + seenWidth ds ∧
      seenWidth ('\x7b' :: (cs ++ ds)) ≤ seenWidth ('\x7b' :: cs) + seenWidth ds := by
  induction cs with
  | nil =>
    have hopen := seenWidth_open_le ds
    exact ⟨by simp, Nat.le_add_left_of_le hopen⟩
  | cons c cs ih =>
    obtain ⟨hout, hin⟩ := ih
    rw [List.cons_append]
    refine ⟨?_, ?_⟩
    · by_cases hopen : c = '\x7b'
      · rw [hopen]
        exact hin
      · rw [seenWidth_seen hopen, seenWidth_seen hopen]
        omega
    · by_cases hclose : c = '\x7d'
      · rw [hclose, seenWidth_closed, seenWidth_closed]
        exact hout
      · rw [seenWidth_open hclose, seenWidth_open hclose]
        exact hin

theorem totalWidth_append {ws : List (List Char)} (h : ws ≠ []) (w : List Char) :
    totalWidth (ws ++ [w]) = totalWidth ws + 1 + seenWidth w := by
  have hlength : 0 < ws.length := List.length_pos_iff.mpr h
  simp only [totalWidth, List.map_append, List.map_cons, List.map_nil, List.sum_append, List.sum_cons,
    List.sum_nil, List.length_append, List.length_cons, List.length_nil]
  omega

theorem totalWidth_append_le (ws vs : List (List Char)) : totalWidth ws ≤ totalWidth (ws ++ vs) := by
  simp only [totalWidth, List.map_append, List.sum_append, List.length_append]
  omega

theorem toList_joinWords (ws : List (List Char)) : (joinWords ws).toList = [' '].intercalate ws := by
  simp [joinWords, String.toList_intercalate, Function.comp_def]

theorem visibleWidth_joinWords_le (ws : List (List Char)) :
    visibleWidth (joinWords ws) ≤ totalWidth ws := by
  rw [visibleWidth, toList_joinWords]
  induction ws with
  | nil => exact Nat.le_refl _
  | cons w ws ih =>
    cases ws with
    | nil => simp [totalWidth]
    | cons next ws =>
      have hblank : seenWidth [' '] = 1 := by decide
      have hjoin := (seenWidth_append_le (w ++ [' ']) ([' '].intercalate (next :: ws))).1
      have hword := (seenWidth_append_le w [' ']).1
      rw [List.intercalate_cons_cons]
      simp only [totalWidth, List.map_cons, List.sum_cons, List.length_cons] at ih ⊢
      omega

end JokerRules.Description
