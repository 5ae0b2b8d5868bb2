import JokerRules.Proofs.JsonStrings
import JokerRules.Proofs.JsonValues

/-! JSON text reads back. A value that reading can give is written as a text that is read as it. -/

namespace JokerRules.Json

theorem writeElements_eq (es : List Json) : writeElements es = es.map write := by
  induction es with
  | nil => rw [writeElements, List.map_nil]
  | cons e es ih => rw [writeElements, ih, List.map_cons]

def writeMember (m : String × Json) : String :=
  writeString m.1 ++ ":" ++ write m.2

theorem writeMembers_eq (ms : List (String × Json)) : writeMembers ms = ms.map writeMember := by
  induction ms with
  | nil => rw [writeMembers, List.map_nil]
  | cons m ms ih =>
    obtain ⟨name, v⟩ := m
    rw [writeMembers, ih, List.map_cons]
    rfl

/-- Texts with commas between them. -/
def commas (texts : List String) : List Char :=
  [','].intercalate (texts.map String.toList)

theorem commas_cons_cons (text next : String) (texts : List String) :
    commas (text :: next :: texts) = text.toList ++ ',' :: commas (next :: texts) := by
  simp [commas, List.intercalate_cons_cons]

theorem commas_singleton (text : String) : commas [text] = text.toList := by
  simp [commas]

theorem toList_write_arr (es : List Json) :
    (write (arr es)).toList = '[' :: (commas (es.map write) ++ [']']) := by
  rw [write, writeElements_eq]
  simp [commas, String.toList_intercalate]

theorem toList_write_obj (ms : List (String × Json)) :
    (write (obj ms)).toList = '\x7b' :: (commas (ms.map writeMember) ++ ['\x7d']) := by
  rw [write, writeMembers_eq]
  simp [commas, String.toList_intercalate]

theorem toList_writeString (s : String) :
    (writeString s).toList = '"' :: (s.toList.flatMap writeChar ++ ['"']) := by
  rw [writeString, String.toList_ofList]

theorem toList_writeMember (m : String × Json) :
    (writeMember m).toList =
      '"' :: (m.1.toList.flatMap writeChar ++ '"' :: ':' :: (write m.2).toList) := by
  rw [writeMember, String.toList_append, String.toList_append, toList_writeString]
  simp

theorem skipSpace_cons {c : Char} (h : isSpace c = false) (cs : List Char) :
    skipSpace (c :: cs) = c :: cs := by
  rw [skipSpace, List.dropWhile_cons_of_neg (by simp [h])]

/-- A digit or a minus. -/
def StartsNumber (c : Char) : Prop :=
  c.isDigit = true ∨ c = '-'

theorem StartsNumber.ne {c d : Char} (h : StartsNumber c) (hdigit : d.isDigit = false)
    (hminus : d ≠ '-') : c ≠ d := by
  rintro rfl
  rcases h with h | h
  · rw [h] at hdigit
    exact nomatch hdigit
  · exact hminus h

theorem StartsNumber.isSpace {c : Char} (h : StartsNumber c) : isSpace c = false := by
  simp [Json.isSpace, h.ne]

theorem exists_startsNumber (negative : Bool) {whole : List Char} (cs : List Char)
    (hwhole : ∀ d ∈ whole, d.isDigit = true) (hne : whole ≠ []) :
    ∃ c t, minus negative ++ (whole ++ cs) = c :: t ∧ StartsNumber c := by
  obtain ⟨d, ds, rfl⟩ := List.exists_cons_of_ne_nil hne
  cases negative with
  | true => exact ⟨'-', _, rfl, .inr rfl⟩
  | false => exact ⟨d, _, rfl, .inl (hwhole d List.mem_cons_self)⟩

theorem exists_writeReal {x : Binary64} (h : x.isFinite = true) :
    ∃ c t, (writeReal x).toList = c :: t ∧ StartsNumber c := by
  obtain ⟨whole, fraction, htext, hwhole, -, hplain, -⟩ := exists_pointed h
  rw [htext]
  exact exists_startsNumber x.negative _ hwhole (plainDigits_ne_nil hplain)

theorem exists_toString (n : Int) : ∃ c t, (toString n).toList = c :: t ∧ StartsNumber c := by
  have htext := exists_startsNumber (n < 0) [] (fun _ => Binary64.isDigit_toDigits (n := n.natAbs))
    Nat.toDigits_ne_nil
  rwa [List.append_nil, ← toList_toString] at htext

theorem readValue_number {c : Char} (h : StartsNumber c) (fuel room : Nat) (cs : List Char) :
    readValue (fuel + 1) room (c :: cs) = readNumber (c :: cs) := by
  have hne := @h.ne
  rw [readValue, skipSpace_cons h.isSpace]
  split <;> simp_all

/-- With two units of fuel for each character the text of a value is read as the value. -/
def ReadsAs (room : Nat) (v : Json) : Prop :=
  ∀ fuel rest, Ends rest → 2 * (write v).toList.length ≤ fuel →
    readValue fuel room ((write v).toList ++ rest) = some (v, rest)

theorem ends_cons {c : Char} (h : c = ',' ∨ c = ']' ∨ c = '\x7d') (rest : List Char) :
    Ends (c :: rest) := by
  intro d hd
  obtain rfl : c = d := Option.some.inj hd
  rcases h with rfl | rfl | rfl <;> decide

theorem readElements_written {room : Nat} {e : Json} {es : List Json}
    (h : ∀ v ∈ e :: es, ReadsAs room v) {fuel : Nat}
    (hfuel : 2 * (commas ((e :: es).map write)).length < fuel) (rest : List Char) :
    readElements fuel room (commas ((e :: es).map write) ++ ']' :: rest) = some (e :: es, rest) := by
  obtain ⟨fuel, rfl⟩ := Nat.exists_eq_succ_of_ne_zero (Nat.ne_zero_of_lt hfuel)
  induction es generalizing e fuel with
  | nil =>
    rw [List.map_singleton, commas_singleton] at hfuel ⊢
    have he := h e List.mem_cons_self fuel (']' :: rest) (ends_cons (.inr (.inl rfl)) rest) (by omega)
    rw [readElements, he]
    rfl
  | cons next es ih =>
    have htext : commas ((e :: next :: es).map write) =
        (write e).toList ++ ',' :: commas ((next :: es).map write) := commas_cons_cons _ _ _
    rw [htext, List.length_append, List.length_cons] at hfuel
    obtain ⟨fuel, rfl⟩ := Nat.exists_eq_succ_of_ne_zero (show fuel ≠ 0 by omega)
    have he := h e List.mem_cons_self (fuel + 1)
      (',' :: (commas ((next :: es).map write) ++ ']' :: rest)) (ends_cons (.inl rfl) _) (by omega)
    have hes := ih (fun v hv => h v (List.mem_cons_of_mem _ hv)) fuel (by omega)
    rw [htext, List.append_assoc, List.cons_append, readElements, he]
    show (readElements (fuel + 1) room _).map _ = _
    rw [hes]
    rfl

/-- The steps up to the value of a member, whatever follows. -/
theorem readMembers_member {room fuel : Nat} {m : String × Json} {after : List Char}
    (h : ReadsAs room m.2) (hfuel : 2 * (writeMember m).toList.length ≤ fuel) (hafter : Ends after) :
    readMembers (fuel + 1) room ((writeMember m).toList ++ after) =
      match skipSpace after with
      | ',' :: cs => (readMembers fuel room cs).map fun r => (m :: r.1, r.2)
      | '\x7d' :: cs => some ([m], cs)
      | _ => none := by
  have hlength : (write m.2).toList.length ≤ (writeMember m).toList.length := by
    rw [toList_writeMember]
    simp only [List.length_cons, List.length_append]
    omega
  have hvalue := h fuel after hafter (by omega)
  rw [toList_writeMember, List.cons_append, List.append_assoc, List.cons_append, List.cons_append,
    readMembers, skipSpace_cons (by decide)]
  show (readString _).bind _ = _
  rw [readString_written]
  show (readValue fuel room _).bind _ = _
  rw [hvalue]
  rfl

theorem readMembers_written {room : Nat} {m : String × Json} {ms : List (String × Json)}
    (h : ∀ member ∈ m :: ms, ReadsAs room member.2) {fuel : Nat}
    (hfuel : 2 * (commas ((m :: ms).map writeMember)).length < fuel) (rest : List Char) :
    readMembers fuel room (commas ((m :: ms).map writeMember) ++ '\x7d' :: rest) =
      some (m :: ms, rest) := by
  obtain ⟨fuel, rfl⟩ := Nat.exists_eq_succ_of_ne_zero (Nat.ne_zero_of_lt hfuel)
  induction ms generalizing m fuel with
  | nil =>
    rw [List.map_singleton, commas_singleton] at hfuel ⊢
    rw [readMembers_member (h m List.mem_cons_self) (by omega) (ends_cons (.inr (.inr rfl)) rest)]
    rfl
  | cons next ms ih =>
    have htext : commas ((m :: next :: ms).map writeMember) =
        (writeMember m).toList ++ ',' :: commas ((next :: ms).map writeMember) :=
      commas_cons_cons _ _ _
    rw [htext, List.length_append, List.length_cons] at hfuel
    obtain ⟨fuel, rfl⟩ := Nat.exists_eq_succ_of_ne_zero (show fuel ≠ 0 by omega)
    have hms := ih (fun v hv => h v (List.mem_cons_of_mem _ hv)) fuel (by omega)
    rw [htext, List.append_assoc, List.cons_append,
      readMembers_member (h m List.mem_cons_self) (by omega) (ends_cons (.inl rfl) _)]
    show (readMembers (fuel + 1) room _).map _ = _
    rw [hms]
    rfl

/-- The first character of a text: no blank, and nothing that ends an array. -/
theorem exists_write {room : Nat} {v : Json} (h : Readable room v) :
    ∃ c cs, (write v).toList = c :: cs ∧ isSpace c = false ∧ c ≠ ']' := by
  have hnumber : ∀ {text : List Char}, (∃ c t, text = c :: t ∧ StartsNumber c) →
      ∃ c cs, text = c :: cs ∧ isSpace c = false ∧ c ≠ ']' := by
    rintro text ⟨c, t, rfl, hc⟩
    exact ⟨c, t, rfl, hc.isSpace, hc.ne (by decide) (by decide)⟩
  cases h with
  | null => exact ⟨'n', _, rfl, by decide, by decide⟩
  | bool b => cases b <;> exact ⟨_, _, rfl, by decide, by decide⟩
  | int h => exact hnumber (exists_toString _)
  | real h => exact hnumber (exists_writeReal h)
  | str s => exact ⟨'"', _, toList_writeString s, by decide, by decide⟩
  | arr h => exact ⟨'[', _, toList_write_arr _, by decide, by decide⟩
  | obj h => exact ⟨'\x7b', _, toList_write_obj _, by decide, by decide⟩

theorem exists_commas {text : String} {c : Char} {cs : List Char} (h : text.toList = c :: cs)
    (texts : List String) : ∃ t, commas (text :: texts) = c :: t := by
  cases texts with
  | nil => exact ⟨cs, by rw [commas_singleton, h]⟩
  | cons next texts => exact ⟨_, by rw [commas_cons_cons, h, List.cons_append]⟩

theorem readsAs_number {v : Json} {text : String} (hwrite : write v = text)
    (htext : ∃ c t, text.toList = c :: t ∧ StartsNumber c)
    (h : ∀ rest, Ends rest → readNumber (text.toList ++ rest) = some (v, rest)) (room : Nat) :
    ReadsAs room v := by
  intro fuel rest hrest hfuel
  obtain ⟨c, t, hcons, hc⟩ := htext
  have hread := h rest hrest
  rw [hwrite, hcons, List.length_cons] at hfuel
  obtain ⟨fuel, rfl⟩ := Nat.exists_eq_succ_of_ne_zero (show fuel ≠ 0 by omega)
  rw [hcons, List.cons_append] at hread
  rw [hwrite, hcons, List.cons_append, readValue_number hc, hread]

theorem readsAs_null (room : Nat) : ReadsAs room null := by
  intro fuel rest _ hfuel
  have hlength : (write null).toList.length = 4 := rfl
  obtain ⟨fuel, rfl⟩ := Nat.exists_eq_succ_of_ne_zero (show fuel ≠ 0 by omega)
  rfl

theorem readsAs_bool (b : Bool) (room : Nat) : ReadsAs room (bool b) := by
  intro fuel rest _ hfuel
  have hlength : 4 ≤ (write (bool b)).toList.length := by cases b <;> decide
  obtain ⟨fuel, rfl⟩ := Nat.exists_eq_succ_of_ne_zero (show fuel ≠ 0 by omega)
  cases b <;> rfl

theorem readsAs_str (s : String) (room : Nat) : ReadsAs room (str s) := by
  intro fuel rest _ hfuel
  have htext : (write (str s)).toList = '"' :: (s.toList.flatMap writeChar ++ ['"']) := by
    rw [write, toList_writeString]
  rw [htext, List.length_cons] at hfuel
  obtain ⟨fuel, rfl⟩ := Nat.exists_eq_succ_of_ne_zero (show fuel ≠ 0 by omega)
  rw [htext, List.cons_append, List.append_assoc, readValue, skipSpace_cons (by decide)]
  show (readString _).map _ = _
  rw [List.singleton_append, readString_written]
  rfl

theorem readsAs_arr {room : Nat} {es : List Json} (hreadable : ∀ e ∈ es, Readable room e)
    (h : ∀ e ∈ es, ReadsAs room e) : ReadsAs (room + 1) (arr es) := by
  intro fuel rest _ hfuel
  rw [toList_write_arr, List.length_cons, List.length_append, List.length_singleton] at hfuel
  obtain ⟨fuel, rfl⟩ := Nat.exists_eq_succ_of_ne_zero (show fuel ≠ 0 by omega)
  rw [toList_write_arr, List.cons_append, List.append_assoc, List.singleton_append, readValue,
    skipSpace_cons (by decide)]
  cases es with
  | nil => rfl
  | cons e es =>
    have hes := readElements_written h (show _ < fuel by omega) rest
    obtain ⟨c, cs, htext, hspace, hclosing⟩ := exists_write (hreadable e List.mem_cons_self)
    obtain ⟨t, ht⟩ := exists_commas htext (es.map write)
    rw [List.map_cons, ht, List.cons_append] at hes ⊢
    simp [skipSpace_cons hspace, hclosing, hes]

theorem readsAs_obj {room : Nat} {ms : List (String × Json)} (hnames : (ms.map Prod.fst).Nodup)
    (h : ∀ m ∈ ms, ReadsAs room m.2) : ReadsAs (room + 1) (obj ms) := by
  intro fuel rest _ hfuel
  rw [toList_write_obj, List.length_cons, List.length_append, List.length_singleton] at hfuel
  obtain ⟨fuel, rfl⟩ := Nat.exists_eq_succ_of_ne_zero (show fuel ≠ 0 by omega)
  rw [toList_write_obj, List.cons_append, List.append_assoc, List.singleton_append, readValue,
    skipSpace_cons (by decide)]
  cases ms with
  | nil => rfl
  | cons m ms =>
    have hms := readMembers_written h (show _ < fuel by omega) rest
    have hspace : isSpace '"' = false := by decide
    obtain ⟨t, ht⟩ := exists_commas (toList_writeMember m) (ms.map writeMember)
    rw [List.map_cons, ht, List.cons_append] at hms ⊢
    simp [skipSpace_cons hspace, hms, lastMembers_eq_self hnames]

/-- A readable value is read from its text. -/
theorem readsAs_of_readable {room : Nat} {v : Json} (h : Readable room v) : ReadsAs room v := by
  induction h with
  | null => exact readsAs_null _
  | bool b => exact readsAs_bool b _
  | int h => exact readsAs_number (by rw [write]) (exists_toString _) (fun _ => readNumber_int h) _
  | real h => exact readsAs_number (by rw [write]) (exists_writeReal h) (fun _ => readNumber_real h) _
  | str s => exact readsAs_str s _
  | arr h ih => exact readsAs_arr h ih
  | obj _ hnames ih => exact readsAs_obj hnames ih

theorem read?_write {v : Json} (h : Readable maxDepth v) : read? (write v) = some v := by
  have hread := readsAs_of_readable h (2 * (write v).length + 2) [] (by simp [Ends])
    (by rw [String.length_toList]; omega)
  rw [List.append_nil] at hread
  rw [read?, hread]
  rfl

example : (read? "[1e2, 0.10, -0]").map write = some "[100.0,0.1,-0.0]" := by decide +kernel

theorem readable_of_read? {text : String} {v : Json} (h : read? text = some v) :
    Readable maxDepth v := by
  unfold read? at h
  split at h
  · next v' rest hread =>
    obtain ⟨-, rfl⟩ := Option.ite_some_none_eq_some.mp h
    exact (givesReadable _).value hread
  · exact nomatch h

end JokerRules.Json
