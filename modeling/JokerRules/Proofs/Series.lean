import JokerRules.Names

/-! Names in series. Names of one stem differ; names of two stems differ too if neither stem ends in
a digit, for then the stem can be read off the name. -/

namespace JokerRules.Names

theorem getD_next (names : Names) (stem stem' : String) :
    (names.next stem).2.getD stem' 0 = names.getD stem' 0 + if stem = stem' then 1 else 0 := by
  simp only [next, Keyed.getD, Keyed.get?_insert, eq_comm (a := stem')]
  split
  · next h => rw [h, Option.getD_some]
  · rfl

theorem nth_eq_append (stem : String) (n : Nat) :
    ∃ digits : List Char, (∀ c ∈ digits, c.isDigit = true) ∧
      (nth stem n).toList = stem.toList ++ digits := by
  unfold nth
  split
  · exact ⟨[], by simp⟩
  · refine ⟨Nat.toDigits 10 n, fun c hc => ?_, by simp⟩
    exact Nat.isDigit_of_mem_toDigits (by decide) (by decide) hc

theorem nth_injective {stem : String} {n m : Nat} (h : nth stem n = nth stem m) : n = m := by
  have hdigits : ∀ k : Nat, stem ≠ stem ++ toString k := by
    intro k hk
    have hk := congrArg String.toList hk
    simp [Nat.toDigits_ne_nil] at hk
  unfold nth at h
  split at h <;> split at h
  · omega
  · exact absurd h (hdigits m)
  · exact absurd h.symm (hdigits n)
  · have h : Nat.toDigits 10 n = Nat.toDigits 10 m := by simpa using congrArg String.toList h
    simpa using congrArg (Nat.ofDigitChars 10 · 0) h

/-- What is left of a name, back to front, without the digits at its end. -/
def trunk (name : String) : List Char :=
  name.toList.reverse.dropWhile Char.isDigit

theorem trunk_nth (stem : String) (n : Nat) : trunk (nth stem n) = trunk stem := by
  obtain ⟨digits, hdigits, h⟩ := nth_eq_append stem n
  unfold trunk
  rw [h, List.reverse_append]
  exact List.dropWhile_append_of_pos fun c hc => hdigits c (List.mem_reverse.mp hc)

/-- The name does not end in a digit. -/
def Unnumbered (name : String) : Prop :=
  trunk name = name.toList.reverse

instance (name : String) : Decidable (Unnumbered name) :=
  inferInstanceAs (Decidable (_ = _))

theorem nth_inj {stem stem' : String} (h : Unnumbered stem) (h' : Unnumbered stem') {n m : Nat}
    (heq : nth stem n = nth stem' m) : stem = stem' ∧ n = m := by
  have hstem : stem = stem' := by
    have htrunk := congrArg trunk heq
    rw [trunk_nth, trunk_nth, h, h'] at htrunk
    exact String.toList_inj.mp (List.reverse_inj.mp htrunk)
  subst hstem
  exact ⟨rfl, nth_injective heq⟩

/-- The name is that of a lower or an upper bound. -/
def EndsInBound (name : String) : Prop :=
  "_min".toList <:+ name.toList ∨ "_max".toList <:+ name.toList

instance (name : String) : Decidable (EndsInBound name) :=
  inferInstanceAs (Decidable (_ ∨ _))

theorem endsInBound_append (name : String) :
    EndsInBound (name ++ "_min") ∧ EndsInBound (name ++ "_max") := by
  refine ⟨.inl ?_, .inr ?_⟩ <;> rw [String.toList_append] <;> exact List.suffix_append _ _

theorem endsInBound_of_nth {stem : String} {n : Nat} (h : EndsInBound (nth stem n)) :
    EndsInBound stem := by
  obtain ⟨digits, hdigits, hnth⟩ := nth_eq_append stem n
  rcases List.eq_nil_or_concat digits with rfl | ⟨front, last, rfl⟩
  · rw [List.append_nil, String.toList_inj] at hnth
    rwa [hnth] at h
  · have hlast : last.isDigit = true := hdigits last (by simp)
    have hreverse : (nth stem n).toList.reverse = last :: (stem.toList ++ front).reverse := by
      rw [hnth]
      simp
    rcases h with h | h <;> rw [← List.reverse_prefix, hreverse] at h
    · obtain rfl : 'n' = last := (List.cons_prefix_cons.mp h).1
      exact absurd hlast (by decide)
    · obtain rfl : 'x' = last := (List.cons_prefix_cons.mp h).1
      exact absurd hlast (by decide)

end JokerRules.Names
