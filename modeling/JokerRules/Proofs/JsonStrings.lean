import JokerRules.Json.Printer
import JokerRules.Json.Reader

/-! Strings of JSON text. A character is written as itself or as an escape, and reading takes a
written string back to its characters. -/

namespace JokerRules.Json

theorem hexDigit?_hexChar {n : Nat} (h : n < 16) : hexDigit? (hexChar n) = some n := by
  have hall : ∀ n : Fin 16, hexDigit? (hexChar n) = some n.val := by decide
  exact hall ⟨n, h⟩

/-- The ways in which a character is written. -/
theorem writeChar_cases (c : Char) :
    (c = '"' ∨ c = '\\') ∧ writeChar c = ['\\', c] ∨
    c.toNat < 0x20 ∧
      writeChar c = ['\\', 'u', '0', '0', hexChar (c.toNat / 16), hexChar (c.toNat % 16)] ∨
    c ≠ '"' ∧ c ≠ '\\' ∧ ¬c.toNat < 0x20 ∧ writeChar c = [c] := by
  unfold writeChar
  split
  · next h => exact .inl ⟨.inl h, by rw [h]⟩
  split
  · next h => exact .inl ⟨.inr h, by rw [h]⟩
  split
  · next h => exact .inr (.inl ⟨h, rfl⟩)
  · next hquote hbackslash hcontrol => exact .inr (.inr ⟨hquote, hbackslash, hcontrol, rfl⟩)

theorem takeString_plain {ds : List Char} (h : ∀ c ∈ ds, c ≠ '"' ∧ c ≠ '\\') (cs : List Char) :
    takeString (ds ++ cs) = (takeString cs).map fun r => (ds ++ r.1, r.2) := by
  induction ds with
  | nil => simp
  | cons d ds ih =>
    obtain ⟨hquote, hbackslash⟩ := h d List.mem_cons_self
    have hcons : takeString (d :: (ds ++ cs)) =
        (takeString (ds ++ cs)).map fun r => (d :: r.1, r.2) := by
      rw [takeString] <;> simp_all
    rw [List.cons_append, hcons, ih fun c hc => h c (List.mem_cons_of_mem _ hc), Option.map_map]
    rfl

theorem takeString_writeChar (c : Char) (cs : List Char) :
    takeString (writeChar c ++ cs) = (takeString cs).map fun r => (writeChar c ++ r.1, r.2) := by
  rcases writeChar_cases c with ⟨-, hwrite⟩ | ⟨hcontrol, hwrite⟩ | ⟨hquote, hbackslash, -, hwrite⟩
  · rw [hwrite]
    rfl
  · have hhex : ∀ n : Fin 16, hexChar n ≠ '"' ∧ hexChar n ≠ '\\' := by decide
    have hhigh := hhex ⟨c.toNat / 16, by omega⟩
    have hlow := hhex ⟨c.toNat % 16, by omega⟩
    have hdigits : ∀ d ∈ ['0', '0', hexChar (c.toNat / 16), hexChar (c.toNat % 16)],
        d ≠ '"' ∧ d ≠ '\\' := by simp [hhigh, hlow]
    have hescape : takeString (writeChar c ++ cs) =
        (takeString (['0', '0', hexChar (c.toNat / 16), hexChar (c.toNat % 16)] ++ cs)).map
          fun r => ('\\' :: 'u' :: r.1, r.2) := by
      rw [hwrite]
      rfl
    rw [hescape, takeString_plain hdigits, Option.map_map, hwrite]
    rfl
  · rw [hwrite, takeString_plain (by simp [hquote, hbackslash])]

theorem takeString_written (s : List Char) (rest : List Char) :
    takeString (s.flatMap writeChar ++ '"' :: rest) = some (s.flatMap writeChar, rest) := by
  induction s with
  | nil => rfl
  | cons c s ih =>
    rw [List.flatMap_cons, List.append_assoc, takeString_writeChar, ih]
    rfl

theorem unescape_writeChar (fuel : Nat) (c : Char) (cs : List Char) :
    unescape (fuel + 1) (writeChar c ++ cs) = (unescape fuel cs).map (c :: ·) := by
  rcases writeChar_cases c with ⟨hc, hwrite⟩ | ⟨hcontrol, hwrite⟩ | ⟨-, hbackslash, hplain, hwrite⟩
  · rw [hwrite]
    rcases hc with rfl | rfl <;> cases hrest : unescape fuel cs <;>
      simp [unescape, simpleEscape?, hrest]
  · have hunit : readCodePoint ('0' :: '0' :: hexChar (c.toNat / 16) :: hexChar (c.toNat % 16) :: cs) =
        some (c, cs) := by
      have hvalue : c.toNat / 16 * 16 + c.toNat % 16 = c.toNat := Nat.div_add_mod' _ _
      have hzero : hexDigit? '0' = some 0 := rfl
      have hhigh := hexDigit?_hexChar (n := c.toNat / 16) (by omega)
      have hlow := hexDigit?_hexChar (n := c.toNat % 16) (by omega)
      have hread : readUnit ('0' :: '0' :: hexChar (c.toNat / 16) :: hexChar (c.toNat % 16) :: cs) =
          some (c.toNat, cs) := by
        simp [readUnit, hzero, hhigh, hlow, hvalue]
      have hsurrogate : ¬0xd800 ≤ c.toNat := by omega
      have hlater : ¬0xdc00 ≤ c.toNat := by omega
      simp [readCodePoint, hread, hsurrogate, hlater]
    have hescape : unescape (fuel + 1) (writeChar c ++ cs) =
        (readCodePoint ('0' :: '0' :: hexChar (c.toNat / 16) :: hexChar (c.toNat % 16) :: cs)).bind
          fun r => (unescape fuel r.2).bind fun s => some (r.1 :: s) := by
      rw [hwrite]
      rfl
    rw [hescape, hunit, Option.bind_some, Option.map_eq_bind]
    rfl
  · rw [hwrite, List.singleton_append]
    simp only [unescape, if_neg hbackslash, if_neg hplain]

theorem unescape_written {s : List Char} {fuel : Nat} (h : s.length ≤ fuel) :
    unescape fuel (s.flatMap writeChar) = some s := by
  induction s generalizing fuel with
  | nil => cases fuel <;> rfl
  | cons c s ih =>
    obtain ⟨fuel, rfl⟩ := Nat.exists_eq_succ_of_ne_zero (Nat.ne_zero_of_lt h)
    rw [List.flatMap_cons, unescape_writeChar, ih (Nat.le_of_succ_le_succ h), Option.map_some]

theorem length_le_written (s : List Char) : s.length ≤ (s.flatMap writeChar).length := by
  induction s with
  | nil => exact Nat.le_refl 0
  | cons c s ih =>
    have hchar : 1 ≤ (writeChar c).length := by
      rcases writeChar_cases c with ⟨-, hwrite⟩ | ⟨-, hwrite⟩ | ⟨-, -, -, hwrite⟩ <;> simp [hwrite]
    rw [List.flatMap_cons, List.length_append, List.length_cons]
    omega

theorem readString_written (s : String) (rest : List Char) :
    readString (s.toList.flatMap writeChar ++ '"' :: rest) = some (s, rest) := by
  have hread : readString (s.toList.flatMap writeChar ++ '"' :: rest) =
      (takeString (s.toList.flatMap writeChar ++ '"' :: rest)).bind fun r =>
        (unescape r.1.length r.1).bind fun text => some (String.ofList text, r.2) := rfl
  rw [hread, takeString_written, Option.bind_some, unescape_written (length_le_written s.toList),
    Option.bind_some, String.ofList_toList]

end JokerRules.Json
