import Mathlib
import JokerRules.Proofs.Brackets.Layout

/-! The ink of a text is the number of its characters that are not blank. Layout neither adds nor
takes ink beyond its own signs, so two texts built in the same way from parts can be told apart by
the ink of the parts. -/

namespace JokerRules

open Text

def inkOf (cs : List Char) : Nat :=
  cs.countP fun c => !isBlank c

def ink (text : String) : Nat :=
  inkOf text.toList

/-- The ink of all texts together. -/
def inkAll (texts : List String) : Nat :=
  (texts.map ink).sum

theorem ink_append (a b : String) : ink (a ++ b) = ink a + ink b := by
  simp [ink, inkOf]

@[simp]
theorem inkAll_nil : inkAll [] = 0 :=
  rfl

@[simp]
theorem inkAll_cons (text : String) (texts : List String) :
    inkAll (text :: texts) = ink text + inkAll texts := by
  simp [inkAll]

@[simp]
theorem inkAll_append (xs ys : List String) : inkAll (xs ++ ys) = inkAll xs + inkAll ys := by
  simp [inkAll]

theorem ink_intercalate (sep : String) (texts : List String) :
    ink (sep.intercalate texts) = inkAll texts + (texts.length - 1) * ink sep := by
  induction texts with
  | nil => simp [ink, inkOf]
  | cons text texts ih =>
    cases texts with
    | nil => simp
    | cons next texts =>
      rw [String.intercalate_cons_cons, ink_append, ink_append, ih]
      simp only [inkAll_cons, List.length_cons, Nat.add_sub_cancel, Nat.succ_mul]
      omega

theorem ink_unlines (texts : List String) : ink (unlines texts) = inkAll texts := by
  have hfeed : ink "\n" = 0 := by decide
  rw [unlines, ink_intercalate, hfeed]
  omega

theorem inkOf_blank {cs : List Char} (h : cs.all isBlank = true) : inkOf cs = 0 := by
  refine List.countP_eq_zero.mpr fun c hc => ?_
  simp [List.all_eq_true.mp h c hc]

theorem inkOf_indentLine (depth : Nat) (line : List Char) :
    inkOf (indentLine depth line) = inkOf line := by
  unfold indentLine
  split
  · next h => exact (inkOf_blank h).symm
  · have hpad : inkOf (padding depth) = 0 := by
      refine inkOf_blank (List.all_eq_true.mpr fun c hc => ?_)
      rw [List.eq_of_mem_replicate hc]
      rfl
    rw [inkOf, List.countP_append]
    exact (congrArg (· + inkOf line) hpad).trans (Nat.zero_add _)

theorem inkOf_lines (cs : List Char) : ((lines cs).map inkOf).sum = inkOf cs := by
  fun_induction lines cs with
  | case1 => rfl
  | case2 cs ih =>
    have hfeed : inkOf ('\n' :: cs) = inkOf cs := by simp [inkOf, show isBlank '\n' = true by decide]
    rw [List.map_cons, List.sum_cons, ih, hfeed]
    exact Nat.zero_add _
  | case3 cs ih =>
    have hfeed : inkOf ('\r' :: '\n' :: cs) = inkOf cs := by
      simp [inkOf, show isBlank '\n' = true by decide, show isBlank '\r' = true by decide]
    rw [List.map_cons, List.sum_cons, ih, hfeed]
    exact Nat.zero_add _
  | case4 c cs hc hcs ih =>
    have hcons : ∀ cs, inkOf (c :: cs) = inkOf [c] + inkOf cs := by
      intro cs
      rw [← List.singleton_append, inkOf, List.countP_append]
      rfl
    rw [hcons, ← ih]
    cases hlines : lines cs with
    | nil => simp [extendFirst, inkOf]
    | cons first rest =>
      rw [extendFirst, List.map_cons, List.map_cons, List.sum_cons, List.sum_cons, hcons]
      omega

theorem ink_indent (depth : Nat) (text : String) : ink (indent depth text) = ink text := by
  rw [indent, ink_unlines, inkAll, List.map_map]
  have hline : (ink ∘ fun line => String.ofList (indentLine depth line)) = inkOf := by
    funext line
    simp [ink, inkOf_indentLine]
  rw [hline]
  exact inkOf_lines text.toList

theorem ink_closure (body : String) : ink (closure body) = ink (closure "") + ink body := by
  have hempty : ink (indent 1 "") = 0 := by decide
  simp only [Text.closure, ink_append, ink_indent 1 body, hempty]
  omega

/-- The signs of a table depend on the number of its entries only. -/
theorem ink_table {entries : List String} (h : entries ≠ []) :
    ink (table entries) = entries.length + 1 + inkAll entries := by
  have hindent : inkAll (entries.map (indent 1)) = inkAll entries := by
    simp [inkAll, Function.comp_def, ink_indent]
  have hsep : ink ",\n" = 1 := by decide
  have hopen : ink "\x7b\n" = 1 := by decide
  have hclose : ink "\n\x7d" = 1 := by decide
  have hlength := List.length_pos_of_ne_nil h
  rw [table, if_neg (by simpa using h), ink_append, ink_append, ink_intercalate, hsep, hopen, hclose,
    hindent, List.length_map]
  omega

/-- The first texts have at least the ink of the others. They have more, unless the condition holds,
and then they are the same. -/
structure Outgrows (P : Prop) (xs ys : List String) : Prop where
  le : inkAll ys ≤ inkAll xs
  eq : P → xs = ys
  of_ink : inkAll xs = inkAll ys → P

namespace Outgrows

variable {P Q : Prop} {xs ys xs' ys' : List String}

theorem refl (xs : List String) : Outgrows True xs xs :=
  ⟨Nat.le_refl _, fun _ => rfl, fun _ => trivial⟩

theorem congr (h : Outgrows P xs ys) (hPQ : P ↔ Q) : Outgrows Q xs ys :=
  ⟨h.le, fun hQ => h.eq (hPQ.mpr hQ), fun hink => hPQ.mp (h.of_ink hink)⟩

theorem append (h : Outgrows P xs ys) (h' : Outgrows Q xs' ys') :
    Outgrows (P ∧ Q) (xs ++ xs') (ys ++ ys') := by
  have hle := h.le
  have hle' := h'.le
  refine ⟨?_, fun hPQ => by rw [h.eq hPQ.1, h'.eq hPQ.2], fun hink => ?_⟩
  · rw [inkAll_append, inkAll_append]
    omega
  · rw [inkAll_append, inkAll_append] at hink
    exact ⟨h.of_ink (by omega), h'.of_ink (by omega)⟩

theorem prepend (h : Outgrows P xs ys) (zs : List String) : Outgrows P (zs ++ xs) (zs ++ ys) :=
  ((refl zs).append h).congr (iff_of_eq (true_and P))

theorem extend (h : Outgrows P xs ys) (zs : List String) : Outgrows P (xs ++ zs) (ys ++ zs) :=
  (h.append (refl zs)).congr (iff_of_eq (and_true P))

/-- Texts made of both in the same way have the same ink beside theirs. -/
theorem transfer (h : Outgrows P xs ys) {n : Nat} (heq : xs = ys → xs' = ys')
    (hx : inkAll xs' = n + inkAll xs) (hy : inkAll ys' = n + inkAll ys) : Outgrows P xs' ys' := by
  have hle := h.le
  exact ⟨by omega, fun hP => heq (h.eq hP), fun hink => h.of_ink (by omega)⟩

theorem eq_iff (h : Outgrows P xs ys) : xs = ys ↔ P :=
  ⟨fun heq => h.of_ink (by rw [heq]), h.eq⟩

theorem unlines (h : Outgrows P xs ys) : Outgrows P [Text.unlines xs] [Text.unlines ys] := by
  refine h.transfer (n := 0) (fun heq => by rw [heq]) ?_ ?_ <;> simp [ink_unlines]

theorem wrap {a b : String} (h : Outgrows P [a] [b]) {f : String → String} {n : Nat}
    (ha : ink (f a) = n + ink a) (hb : ink (f b) = n + ink b) : Outgrows P [f a] [f b] := by
  refine h.transfer (fun heq => by rw [List.singleton_inj.mp heq]) (n := n) ?_ ?_
  · simpa using ha
  · simpa using hb

theorem indent {a b : String} (h : Outgrows P [a] [b]) (depth : Nat) :
    Outgrows P [Text.indent depth a] [Text.indent depth b] :=
  h.wrap (n := 0) (by rw [ink_indent]; omega) (by rw [ink_indent]; omega)

/-- A block around both texts. -/
theorem block {a b : String} (h : Outgrows P [a] [b]) (first last : String) :
    Outgrows P [Text.unlines [first, Text.indent 1 a, last]]
      [Text.unlines [first, Text.indent 1 b, last]] :=
  (((h.indent 1).extend [last]).prepend [first]).unlines

theorem after {a b : String} (h : Outgrows P [a] [b]) (start : String) :
    Outgrows P [start ++ a] [start ++ b] :=
  h.wrap (ink_append start a) (ink_append start b)

theorem closure {a b : String} (h : Outgrows P [a] [b]) :
    Outgrows P [Text.closure a] [Text.closure b] :=
  h.wrap (ink_closure a) (ink_closure b)

end Outgrows

/-- Texts that outgrow as many others. `present` tells whether there are any. -/
structure Matches (P : Prop) (present : Bool) (xs ys : List String) : Prop where
  isEmpty : xs.isEmpty = !present
  length : xs.length = ys.length
  outgrows : Outgrows P xs ys

namespace Matches

variable {P Q : Prop} {present present' : Bool} {xs ys xs' ys' : List String}

theorem refl (xs : List String) : Matches True (!xs.isEmpty) xs xs :=
  ⟨by simp, rfl, .refl xs⟩

theorem nil : Matches True false [] [] :=
  .refl []

theorem congr (h : Matches P present xs ys) (hPQ : P ↔ Q) : Matches Q present xs ys :=
  ⟨h.isEmpty, h.length, h.outgrows.congr hPQ⟩

theorem append (h : Matches P present xs ys) (h' : Matches Q present' xs' ys') :
    Matches (P ∧ Q) (present || present') (xs ++ xs') (ys ++ ys') := by
  refine ⟨?_, by rw [List.length_append, List.length_append, h.length, h'.length],
    h.outgrows.append h'.outgrows⟩
  rw [Bool.not_or, ← h.isEmpty, ← h'.isEmpty]
  cases xs <;> rfl

theorem isEmpty_right (h : Matches P present xs ys) : ys.isEmpty = !present := by
  rw [← h.isEmpty, Bool.eq_iff_iff, List.isEmpty_iff, List.isEmpty_iff, ← List.length_eq_zero_iff,
    ← List.length_eq_zero_iff, h.length]

theorem one {a b : String} (h : Outgrows P [a] [b]) : Matches P true [a] [b] :=
  ⟨rfl, rfl, h⟩

theorem starts (h : Matches P present xs ys) (start : String) :
    Matches P present (xs.map (start ++ ·)) (ys.map (start ++ ·)) := by
  have hink : ∀ zs : List String, inkAll (zs.map (start ++ ·)) = zs.length * ink start + inkAll zs := by
    intro zs
    induction zs with
    | nil => simp
    | cons z zs ih =>
      rw [List.map_cons, inkAll_cons, inkAll_cons, ih, ink_append, List.length_cons, Nat.succ_mul]
      omega
  refine ⟨by rw [← h.isEmpty]; cases xs <;> rfl, by simpa using h.length, ?_⟩
  exact h.outgrows.transfer (fun heq => by rw [heq]) (hink xs) (h.length ▸ hink ys)

/-- A text made of the others, unless there are none. -/
theorem whole (h : Matches P present xs ys) {f : List String → String}
    (hf : Outgrows P [f xs] [f ys]) :
    Matches P present (if xs.isEmpty then none else some (f xs)).toList
      (if ys.isEmpty then none else some (f ys)).toList := by
  rw [h.isEmpty, h.isEmpty_right]
  cases present with
  | false =>
    have hxs : xs = [] := by simpa using h.isEmpty
    have hys : ys = [] := by simpa using h.isEmpty_right
    rw [hxs, hys] at h
    exact h
  | true => exact one hf

theorem table (h : Matches P true xs ys) : Outgrows P [Text.table xs] [Text.table ys] := by
  have hx : xs ≠ [] := by
    intro hnil
    have hempty := h.isEmpty
    simp [hnil] at hempty
  have hy : ys ≠ [] := by
    intro hnil
    have hempty := h.isEmpty_right
    simp [hnil] at hempty
  have hink : ∀ zs : List String, zs ≠ [] → zs.length = xs.length →
      inkAll [Text.table zs] = (xs.length + 1) + inkAll zs := by
    intro zs hzs hlength
    simp [ink_table hzs, hlength]
  exact h.outgrows.transfer (fun heq => by rw [heq]) (hink xs hx rfl) (hink ys hy h.length.symm)

end Matches

end JokerRules
