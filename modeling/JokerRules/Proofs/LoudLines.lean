import JokerRules.Proofs.Series
import JokerRules.Proofs.Statements

/-! Lines that write slots or captured values. The characters of a line up to the first ones that
belong to no name show whether it does. -/

namespace JokerRules.Statement

open Text

/-- The line writes a slot, or a variable whose name is that of a captured value. -/
def Loud (cs : List Char) : Prop :=
  ∃ start name expr : List Char, cs = start ++ (name ++ (equals ++ expr)) ∧ IsName name ∧
    (start = slotStart ∨ (start = [] ∨ start = localStart) ∧ "_value".toList <:+ name)

theorem loud_of_read_assign {cs : List Char} {slot expr : String}
    (h : read cs = assign slot expr) : Loud cs := by
  unfold read at h
  split at h
  · exact nomatch h
  · next hassign =>
    obtain ⟨rfl, rfl⟩ := assign.inj h
    obtain ⟨rest, hrest, heq⟩ := Option.bind_eq_some_iff.mp hassign
    obtain ⟨hname, rfl⟩ := equation?_eq_some_iff.mp heq
    exact ⟨slotStart, _, _, after?_eq_some_iff.mp hrest, hname, .inl rfl⟩
  · exact nomatch h

theorem loud_of_read_bind {cs : List Char} {name expr : String} (h : read cs = bind name expr)
    (hvalue : "_value".toList <:+ name.toList) : Loud cs := by
  unfold read at h
  split at h
  · next hbinding =>
    obtain ⟨rfl, rfl⟩ := bind.inj h
    rcases Option.or_eq_some_iff.mp hbinding with heq | ⟨-, heq⟩
    · obtain ⟨hname, rfl⟩ := equation?_eq_some_iff.mp heq
      exact ⟨[], _, _, rfl, hname, .inr ⟨.inl rfl, hvalue⟩⟩
    · obtain ⟨rest, hrest, heq⟩ := Option.bind_eq_some_iff.mp heq
      obtain ⟨hname, rfl⟩ := equation?_eq_some_iff.mp heq
      exact ⟨localStart, _, _, after?_eq_some_iff.mp hrest, hname, .inr ⟨.inr rfl, hvalue⟩⟩
  · exact nomatch h
  · exact nomatch h

theorem Loud.extend {cs cs' : List Char} (h : Loud cs) (hle : cs <+: cs') : Loud cs' := by
  obtain ⟨start, name, expr, rfl, hname, hstart⟩ := h
  obtain ⟨more, rfl⟩ := hle
  exact ⟨start, name, expr ++ more, by simp, hname, hstart⟩

theorem not_mem_start {start : List Char} (h : start = slotStart ∨ start = [] ∨ start = localStart) :
    '\n' ∉ start := by
  rcases h with rfl | rfl | rfl <;> decide

theorem ne_lineFeed_of_isNameChar {c : Char} (h : isNameChar c = true) : c ≠ '\n' := by
  rintro rfl
  exact absurd h (by decide)

/-- What makes a text loud stands in its first line. -/
theorem Loud.firstLine {line rest : List Char} (h : Loud (line ++ '\n' :: rest)) : Loud line := by
  obtain ⟨start, name, expr, heq, hname, hstart⟩ := h
  have hfront : '\n' ∉ start ++ (name ++ equals) := by
    intro hmem
    simp only [List.mem_append] at hmem
    rcases hmem with hmem | hmem | hmem
    · exact not_mem_start (hstart.imp_right (·.1)) hmem
    · exact ne_lineFeed_of_isNameChar (hname.2 _ hmem) rfl
    · exact absurd hmem (by decide)
  have heq : line ++ '\n' :: rest = (start ++ (name ++ equals)) ++ expr := by simp [heq]
  rcases List.append_eq_append_iff.mp heq with ⟨more, hfrontEq, hrest⟩ | ⟨more, hline, -⟩
  · cases more with
    | nil =>
      rw [List.append_nil] at hfrontEq
      exact ⟨start, name, [], by simpa using hfrontEq.symm, hname, hstart⟩
    | cons c more =>
      obtain ⟨rfl, -⟩ := List.cons.inj hrest
      exact absurd (hfrontEq ▸ by simp) hfront
  · exact ⟨start, name, more, by simp [hline], hname, hstart⟩

/-- Where a loud line has its first character that is no name's. -/
theorem Loud.cases {cs : List Char} (h : Loud cs) :
    (∃ rest, cs.dropWhile isNameChar = ' ' :: '=' :: rest ∧
        "_value".toList <:+ cs.takeWhile isNameChar) ∨
      (∃ rest, cs.dropWhile isNameChar = '.' :: 'a' :: rest ∧
        cs.takeWhile isNameChar = "card".toList) ∨
      ∃ name expr, cs.takeWhile isNameChar = "local".toList ∧
        cs.dropWhile isNameChar = ' ' :: (name ++ (equals ++ expr)) ∧ IsName name ∧
        "_value".toList <:+ name := by
  have hdot : isNameChar '.' = false := by decide
  have hblank : isNameChar ' ' = false := by decide
  obtain ⟨start, name, expr, rfl, hname, rfl | ⟨rfl | rfl, hvalue⟩⟩ := h
  · exact .inr (.inl ⟨"bility.extra.".toList ++ (name ++ (equals ++ expr)),
      dropWhile_name "card".toList (List.all_eq_true.mp rfl) hdot _,
      takeWhile_name "card".toList (List.all_eq_true.mp rfl) hdot _⟩)
  · refine .inl ⟨' ' :: expr, dropWhile_name name hname.2 hblank _, ?_⟩
    have htake := takeWhile_name name hname.2 hblank ('=' :: ' ' :: expr)
    exact htake.symm ▸ hvalue
  · exact .inr (.inr ⟨name, expr, takeWhile_name "local".toList (List.all_eq_true.mp rfl) hblank _,
      dropWhile_name "local".toList (List.all_eq_true.mp rfl) hblank _, hname, hvalue⟩)

/-- The name of no captured value, known to its end. -/
def plainFront (cs : List Char) : Bool :=
  !(cs.dropWhile isNameChar).isEmpty && !"_value".toList.isSuffixOf (cs.takeWhile isNameChar)

/-- Neither a slot nor a captured value is written whatever follows, as the first characters that
are no name's show. -/
def settled (cs : List Char) : Bool :=
  match cs.dropWhile isNameChar with
  | c :: d :: more =>
    if c = '.' then d != 'a' || cs.takeWhile isNameChar != "card".toList
    else if c = ' ' then
      if cs.takeWhile isNameChar = "local".toList then plainFront (d :: more)
      else d != '=' || plainFront cs
    else true
  | _ => false

theorem takeWhile_of_dropWhile_ne_nil {cs : List Char} (h : cs.dropWhile isNameChar ≠ [])
    (rest : List Char) : (cs ++ rest).takeWhile isNameChar = cs.takeWhile isNameChar := by
  induction cs with
  | nil => exact absurd rfl h
  | cons c cs ih =>
    by_cases hc : isNameChar c = true
    · rw [List.dropWhile_cons_of_pos hc] at h
      rw [List.cons_append, List.takeWhile_cons_of_pos hc, List.takeWhile_cons_of_pos hc, ih h]
    · rw [List.cons_append, List.takeWhile_cons_of_neg hc, List.takeWhile_cons_of_neg hc]

theorem not_value_of_plainFront {cs : List Char} (h : plainFront cs = true) (rest : List Char) :
    ¬"_value".toList <:+ (cs ++ rest).takeWhile isNameChar := by
  simp only [plainFront, Bool.and_eq_true, Bool.not_eq_true', List.isEmpty_eq_false_iff] at h
  rw [takeWhile_of_dropWhile_ne_nil h.1]
  intro hsuffix
  rw [List.isSuffixOf_iff_suffix.mpr hsuffix] at h
  exact nomatch h.2

theorem not_loud_of_settled {cs : List Char} (h : settled cs = true) (rest : List Char) :
    ¬Loud (cs ++ rest) := by
  unfold settled at h
  split at h
  · next c d more htail =>
    have hne : cs.dropWhile isNameChar ≠ [] := htail ▸ List.cons_ne_nil _ _
    have htake := takeWhile_of_dropWhile_ne_nil hne rest
    have hdrop : (cs ++ rest).dropWhile isNameChar = c :: d :: (more ++ rest) := by
      rw [List.dropWhile_append, htail]
      rfl
    intro hloud
    rcases hloud.cases with ⟨_, heq, hvalue⟩ | ⟨_, heq, hcard⟩ |
      ⟨name, expr, hlocal, heq, hname, hvalue⟩ <;>
      rw [hdrop] at heq <;> obtain ⟨rfl, htailEq⟩ := List.cons.inj heq
    · obtain ⟨rfl, -⟩ := List.cons.inj htailEq
      rw [if_neg (by decide), if_pos rfl] at h
      split at h
      · next hword =>
        rw [htake, hword] at hvalue
        exact absurd hvalue (by decide)
      · exact not_value_of_plainFront (by simpa using h) rest hvalue
    · obtain ⟨rfl, -⟩ := List.cons.inj htailEq
      rw [htake] at hcard
      simp [hcard] at h
    · rw [if_neg (by decide), if_pos rfl, if_pos (htake.symm.trans hlocal)] at h
      have hblank : isNameChar ' ' = false := by decide
      have hnameTake := takeWhile_name name hname.2 hblank ('=' :: ' ' :: expr)
      refine not_value_of_plainFront h rest ?_
      rw [List.cons_append, htailEq]
      exact hnameTake.symm ▸ hvalue
  · exact nomatch h

/-- A name that no captured value has. -/
structure PlainName (name : String) : Prop where
  isName : IsName name.toList
  not_value : ¬"_value".toList <:+ name.toList
  ne_local : name ≠ "local"

theorem PlainName.not_loud {name : String} (h : PlainName name) (expr : List Char) :
    ¬Loud (name.toList ++ (equals ++ expr)) := by
  have hblank : isNameChar ' ' = false := by decide
  have hdrop := dropWhile_name _ h.isName.2 hblank ('=' :: ' ' :: expr)
  have htake := takeWhile_name _ h.isName.2 hblank ('=' :: ' ' :: expr)
  change ¬Loud (name.toList ++ ' ' :: '=' :: ' ' :: expr)
  intro hloud
  rcases hloud.cases with ⟨_, -, hvalue⟩ | ⟨_, heq, -⟩ | ⟨_, _, hlocal, -, -, -⟩
  · exact h.not_value (htake ▸ hvalue)
  · rw [hdrop] at heq
    simp at heq
  · exact h.ne_local (String.toList_inj.mp (htake.symm.trans hlocal))

theorem PlainName.not_loud_local {name : String} (h : PlainName name) (expr : List Char) :
    ¬Loud (localStart ++ (name.toList ++ (equals ++ expr))) := by
  have hblank : isNameChar ' ' = false := by decide
  have hdrop := dropWhile_name "local".toList (List.all_eq_true.mp rfl) hblank
    (name.toList ++ (equals ++ expr))
  change ¬Loud ("local".toList ++ ' ' :: (name.toList ++ (equals ++ expr)))
  intro hloud
  rcases hloud.cases with ⟨rest, heq, -⟩ | ⟨_, heq, -⟩ | ⟨name', expr', -, heq, hname, hvalue⟩ <;>
    rw [hdrop] at heq
  · obtain ⟨c, cs, hcs⟩ := List.exists_cons_of_ne_nil h.isName.1
    rw [hcs] at heq
    obtain rfl : c = '=' := (List.cons.inj (List.cons.inj heq).2).1
    have hc := h.isName.2 '=' (hcs ▸ List.mem_cons_self)
    exact absurd hc (by decide)
  · simp at heq
  · have heq := (List.cons.inj heq).2
    have hsame := congrArg (List.takeWhile isNameChar) heq
    have htake := takeWhile_name _ h.isName.2 hblank ('=' :: ' ' :: expr)
    have htake' := takeWhile_name _ hname.2 hblank ('=' :: ' ' :: expr')
    exact h.not_value ((htake.symm.trans (hsame.trans htake')) ▸ hvalue)

theorem not_loud_nil : ¬Loud [] := by
  rintro ⟨start, name, expr, heq, ⟨hne, -⟩, -⟩
  simp_all

theorem isNameChar_nth {stem : String} (h : ∀ c ∈ stem.toList, isNameChar c = true) (n : Nat) :
    ∀ c ∈ (Names.nth stem n).toList, isNameChar c = true := by
  obtain ⟨digits, hdigits, htext⟩ := Names.nth_eq_append stem n
  intro c hc
  rw [htext] at hc
  rcases List.mem_append.mp hc with hstem | hdigit
  · exact h c hstem
  · have hc := hdigits c hdigit
    simp [isNameChar, Char.isAlphanum, hc]

theorem plainName_nth {stem : String} (h : PlainName stem) (n : Nat) :
    PlainName (Names.nth stem n) := by
  obtain ⟨digits, hdigits, hnth⟩ := Names.nth_eq_append stem n
  have hcase : Names.nth stem n = stem ∨
      ∃ front last, last.isDigit = true ∧ (Names.nth stem n).toList = front ++ [last] := by
    rcases List.eq_nil_or_concat digits with rfl | ⟨front, last, rfl⟩
    · exact .inl (String.toList_inj.mp (by simpa using hnth))
    · exact .inr ⟨stem.toList ++ front, last, hdigits last (by simp), by simp [hnth]⟩
  refine ⟨⟨by simp [hnth, h.isName.1], isNameChar_nth h.isName.2 n⟩, fun hvalue => ?_,
    fun hlocal => ?_⟩
  · rcases hcase with heq | ⟨front, last, hlast, heq⟩
    · exact h.not_value (heq ▸ hvalue)
    · rw [heq, ← List.reverse_prefix] at hvalue
      obtain rfl : 'e' = last := by
        have hreverse : (front ++ [last]).reverse = last :: front.reverse := by simp
        rw [hreverse] at hvalue
        exact (List.cons_prefix_cons.mp hvalue).1
      exact absurd hlast (by decide)
  · rcases hcase with heq | ⟨front, last, hlast, heq⟩
    · exact h.ne_local (heq ▸ hlocal)
    · rw [hlocal] at heq
      obtain rfl : 'l' = last := by
        have hgetLast := congrArg List.getLast? heq
        simpa using hgetLast
      exact absurd hlast (by decide)

end JokerRules.Statement
