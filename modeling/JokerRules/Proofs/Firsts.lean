import JokerRules.Proofs.Series
import JokerRules.Proofs.StepChanges
import Mathlib.Data.List.Nodup

/-! The first entries of their keys in a list. Declaring slots one after another keeps the first
declarations of their names. -/

namespace JokerRules.Storage

open Step Text

section Firsts

variable {α : Type} (key : α → String)

/-- The first element of each key. -/
def firsts : List α → List α
  | [] => []
  | a :: l => a :: (firsts l).filter (key · ≠ key a)

theorem mem_map_firsts {l : List α} {k : String} :
    k ∈ (firsts key l).map key ↔ k ∈ l.map key := by
  induction l with
  | nil => rfl
  | cons a l ih =>
    by_cases hk : k = key a
    · simp [firsts, hk]
    · simp only [firsts, List.map_cons, List.mem_cons, hk, false_or, ← ih, List.mem_map,
        List.mem_filter]
      grind

theorem nodup_firsts (l : List α) : ((firsts key l).map key).Nodup := by
  induction l with
  | nil => exact .nil
  | cons a l ih =>
    refine List.nodup_cons.mpr ⟨by simp, ?_⟩
    exact ih.sublist (List.filter_sublist.map key)

theorem mem_of_mem_firsts {l : List α} {a : α} (h : a ∈ firsts key l) : a ∈ l := by
  induction l with
  | nil => exact h
  | cons b l ih =>
    rcases List.mem_cons.mp h with rfl | h
    · exact List.mem_cons_self
    · exact List.mem_cons_of_mem _ (ih (List.mem_filter.mp h).1)

theorem find?_firsts (l : List α) (k : String) :
    (firsts key l).find? (key · == k) = l.find? (key · == k) := by
  induction l with
  | nil => rfl
  | cons a l ih =>
    by_cases hk : key a = k
    · simp [firsts, hk]
    · simp only [firsts, List.find?_cons, beq_eq_false_iff_ne.mpr hk, ← ih, List.find?_filter]
      congr 1
      grind

theorem firsts_eq_self {l : List α} (h : (l.map key).Nodup) : firsts key l = l := by
  induction l with
  | nil => rfl
  | cons a l ih =>
    obtain ⟨ha, hl⟩ := List.nodup_cons.mp h
    rw [firsts, ih hl]
    congr 1
    refine List.filter_eq_self.mpr fun b hb => decide_eq_true fun hab => ha ?_
    exact hab ▸ List.mem_map_of_mem hb

theorem firsts_append (l m : List α) :
    firsts key (l ++ m) = firsts key l ++ (firsts key m).filter (key · ∉ l.map key) := by
  induction l with
  | nil => exact (List.filter_eq_self.mpr fun _ _ => by simp).symm
  | cons a l ih =>
    simp only [List.cons_append, firsts, ih, List.filter_append, List.filter_filter]
    congr 3
    grind

theorem firsts_firsts (l : List α) : firsts key (firsts key l) = firsts key l :=
  firsts_eq_self key (nodup_firsts key l)

variable {key}

theorem firsts_append_congr_left {l m : List α} (h : firsts key l = firsts key m) (front : List α) :
    firsts key (front ++ l) = firsts key (front ++ m) := by
  rw [firsts_append, firsts_append, h]

theorem firsts_append_congr_right {l m : List α} (h : firsts key l = firsts key m) (back : List α) :
    firsts key (l ++ back) = firsts key (m ++ back) := by
  have hkeys : ∀ k, k ∈ l.map key ↔ k ∈ m.map key := by
    intro k
    rw [← mem_map_firsts key, h, mem_map_firsts]
  rw [firsts_append, firsts_append, h]
  congr 2
  funext a
  simp only [hkeys]

/-- Elements whose keys have occurred can be left out. -/
theorem firsts_skip {front between : List α} (h : ∀ a ∈ between, key a ∈ front.map key)
    (back : List α) : firsts key (front ++ (between ++ back)) = firsts key (front ++ back) := by
  rw [← List.append_assoc]
  refine firsts_append_congr_right ?_ back
  rw [firsts_append]
  refine (congrArg _ (List.filter_eq_nil_iff.mpr fun a ha => ?_)).trans (List.append_nil _)
  have hkey : key a ∈ between.map key := (mem_map_firsts key).mp (List.mem_map_of_mem ha)
  obtain ⟨b, hb, hab⟩ := List.mem_map.mp hkey
  simpa [hab] using h b hb

theorem firsts_filter (p : String → Bool) (l : List α) :
    firsts key (l.filter (p <| key ·)) = (firsts key l).filter (p <| key ·) := by
  induction l with
  | nil => rfl
  | cons a l ih =>
    by_cases ha : p (key a)
    · simp only [List.filter_cons, ha, if_true, firsts, ih, List.filter_filter]
      congr 2
      grind
    · simp only [List.filter_cons, ha, Bool.false_eq_true, if_false, firsts, ih, List.filter_filter]
      refine List.filter_congr fun b _ => ?_
      by_cases hb : p (key b)
      · have hne : key b ≠ key a := fun hab => ha (hab ▸ hb)
        simp [hb, hne]
      · simp [hb]

end Firsts

theorem any_name_iff {slots : List Slot} {name : String} :
    slots.any (·.name == name) = true ↔ name ∈ slots.map (·.name) := by
  simp

theorem mem_names_iff_find? {slots : List Slot} {name : String} :
    name ∈ slots.map (·.name) ↔ (slots.find? (·.name == name)).isSome = true := by
  rw [List.find?_isSome, ← List.any_eq_true, any_name_iff]

theorem firsts_addSlot (taken slots : List Slot) (slot : Slot) :
    firsts Slot.name (taken ++ Draft.addSlot taken slots slot) =
      firsts Slot.name (taken ++ slots ++ [slot]) := by
  unfold Draft.addSlot
  split
  · next h =>
    have hmem : ∀ s ∈ [slot], s.name ∈ (taken ++ slots).map (·.name) := by
      simpa using any_name_iff.mp h
    simpa using (firsts_skip hmem []).symm
  · rw [List.append_assoc]

theorem firsts_foldl_addSlot (taken news slots : List Slot) :
    firsts Slot.name (taken ++ news.foldl (Draft.addSlot taken) slots) =
      firsts Slot.name (taken ++ slots ++ news) := by
  induction news generalizing slots with
  | nil => simp
  | cons slot news ih =>
    rw [List.foldl_cons, ih]
    exact (firsts_append_congr_right (firsts_addSlot taken slots slot) news).trans (by simp)

theorem nodup_foldl_addSlot (news : List Slot) {slots : List Slot}
    (h : (slots.map (·.name)).Nodup) :
    ((news.foldl (Draft.addSlot []) slots).map (·.name)).Nodup := by
  induction news generalizing slots with
  | nil => exact h
  | cons slot news ih =>
    refine ih ?_
    unfold Draft.addSlot
    split
    · exact h
    · next hnew =>
      have hnew : slot.name ∉ slots.map (·.name) := fun hmem => hnew (any_name_iff.mpr hmem)
      rw [List.map_append]
      exact List.nodup_append.mpr ⟨h, by simp, by simpa using hnew⟩

theorem foldl_addSlot_eq (news : List Slot) {slots : List Slot}
    (h : (slots.map (·.name)).Nodup) :
    news.foldl (Draft.addSlot []) slots = firsts Slot.name (slots ++ news) := by
  rw [← firsts_eq_self Slot.name (nodup_foldl_addSlot news h)]
  exact firsts_foldl_addSlot [] news slots

/-- The slots of the authored variables that have a name. -/
def userSlots (item : Item) : List Slot :=
  (item.userVariables.map Slot.ofVariable).filter (·.name ≠ "")

theorem authoredSlots_eq (item : Item) :
    authoredSlots item = firsts Slot.name (userSlots item) := by
  have hfold : ∀ (vs : List UserVariable) (slots : List Slot),
      vs.foldl addVariable slots =
        ((vs.map Slot.ofVariable).filter (·.name ≠ "")).foldl (Draft.addSlot []) slots := by
    intro vs
    induction vs with
    | nil => exact fun _ => rfl
    | cons v vs ih =>
      intro slots
      rw [List.foldl_cons, ih]
      by_cases hname : (Slot.ofVariable v).name = ""
      · simp [addVariable, hname]
      · simp [addVariable, hname, Draft.addSlot]
  exact (hfold item.userVariables []).trans (foldl_addSlot_eq _ .nil)

end JokerRules.Storage
