import JokerRules.Json.Printer
import JokerRules.Json.Reader
import JokerRules.Proofs.DecimalText

/-! Numbers of JSON text. What is written for a finite number is read as this number, and every
number that is read is finite. -/

namespace JokerRules.Json

/-- Nothing that would go on with a number. -/
def Ends (rest : List Char) : Prop :=
  ∀ c ∈ rest.head?, c.isDigit = false ∧ c ≠ '.' ∧ c ≠ 'e' ∧ c ≠ 'E'

theorem takePointed?_of_ends {rest : List Char} (h : Ends rest) :
    takePointed? rest = some ([], rest) := by
  cases rest with
  | nil => rfl
  | cons c rest =>
    have hpoint := (h c rfl).2.1
    unfold takePointed?
    split
    · next heq => exact absurd (List.cons.inj heq).1 hpoint
    · rfl

theorem takeExponent?_of_ends {rest : List Char} (h : Ends rest) :
    takeExponent? rest = some ([], rest) := by
  cases rest with
  | nil => rfl
  | cons c rest =>
    obtain ⟨-, -, hlower, hupper⟩ := h c rfl
    simp [takeExponent?, hlower, hupper]

theorem plainDigits_ne_nil {whole : List Char} (h : plainDigits whole = true) : whole ≠ [] := by
  rintro rfl
  exact nomatch h

/-- The sign in front of a number. -/
def minus (negative : Bool) : List Char :=
  if negative then ['-'] else []

/-- The steps of reading a number after its first digits. -/
theorem readNumber_eq (negative : Bool) {whole cs : List Char}
    (hwhole : ∀ d ∈ whole, d.isDigit = true) (hplain : plainDigits whole = true)
    (hcs : ∀ c ∈ cs.head?, c.isDigit = false) :
    readNumber (minus negative ++ (whole ++ cs)) = do
      let (fraction, cs) ← takePointed? cs
      let (exponent, cs) ← takeExponent? cs
      let x ← Binary64.read? (String.ofList (minus negative ++ whole ++ fraction ++ exponent))
      if !fraction.isEmpty || !exponent.isEmpty || (negative && whole = ['0']) then
        return (real x, cs)
      else if negative then return (int (-(digitsValue whole : Int)), cs)
      else return (int (digitsValue whole), cs) := by
  obtain ⟨htake, hdrop⟩ := Binary64.takeWhile_digits hwhole cs hcs
  obtain ⟨d, ds, rfl⟩ := List.exists_cons_of_ne_nil (plainDigits_ne_nil hplain)
  have hminus : d ≠ '-' := by
    rintro rfl
    exact absurd (hwhole _ List.mem_cons_self) (by decide)
  unfold readNumber
  split
  next negative' cs' heq =>
  have hsign : (negative', cs') = (negative, d :: ds ++ cs) := by
    rw [← heq]
    cases negative with
    | true => rfl
    | false => simp [minus, hminus]
  obtain ⟨rfl, rfl⟩ := Prod.mk.inj hsign
  simp only [htake, hdrop, hplain]
  rfl

theorem plainDigits_cons {d : Char} (h : d ≠ '0') (ds : List Char) : plainDigits (d :: ds) = true := by
  rw [plainDigits]
  · simpa using h
  · simp [h]

theorem exists_toDigits {n : Nat} (h : n ≠ 0) :
    ∃ d ds, Nat.toDigits 10 n = d :: ds ∧ d ≠ '0' := by
  obtain ⟨d, ds, hds⟩ := List.exists_cons_of_ne_nil (Nat.toDigits_ne_nil (n := n) (b := 10))
  refine ⟨d, ds, hds, ?_⟩
  rintro rfl
  have hvalue := digitsValue_toDigits n
  have hlt : digitsValue ds < 10 ^ ds.length := Binary64.digitsValue_lt fun c hc =>
    Binary64.isDigit_toDigits (n := n) (hds ▸ List.mem_cons_of_mem _ hc)
  have hle := Binary64.pow_le_of_digitCount h
  rw [digitCount, hds, List.length_cons, Nat.add_sub_cancel] at hle
  rw [hds, Binary64.digitsValue_cons, Nat.sub_self, Nat.zero_mul, Nat.zero_add] at hvalue
  omega

/-- Digits with a point before the last ones. -/
structure Pointed (whole fraction : List Char) (c : Nat) (e : Int) : Prop where
  whole_digits : ∀ d ∈ whole, d.isDigit = true
  fraction_digits : ∀ d ∈ fraction, d.isDigit = true
  plain : plainDigits whole = true
  fraction_ne : fraction ≠ []
  value : (digitsValue (whole ++ fraction) : ℚ) * 10 ^ (-fraction.length : Int) = c * 10 ^ e

theorem isDigit_zero : ∀ d ∈ ['0'], d.isDigit = true :=
  List.forall_mem_singleton.mpr rfl

theorem pointed_whole {c : Nat} (hc : c ≠ 0) {e : Int} (he : 0 ≤ e) :
    Pointed (Binary64.positional c e) ['0'] c e := by
  obtain ⟨n, rfl⟩ : ∃ n : Nat, e = n := ⟨e.toNat, by omega⟩
  have htext : Binary64.positional c n = Nat.toDigits 10 c ++ List.replicate n '0' := by
    simp [Binary64.positional]
  obtain ⟨d, ds, hds, hd⟩ := exists_toDigits hc
  refine ⟨fun d hd => ?_, isDigit_zero, ?_, by simp, ?_⟩
  · rw [htext] at hd
    rcases List.mem_append.mp hd with hd | hd
    · exact Binary64.isDigit_toDigits hd
    · exact List.eq_of_mem_replicate hd ▸ rfl
  · rw [htext, hds]
    exact plainDigits_cons hd _
  · have hzero : digitsValue ['0'] = 0 := rfl
    rw [htext, digitsValue_append, digitsValue_append, digitsValue_zeros, digitsValue_toDigits, hzero]
    simp

theorem exists_pointed_positional {c : Nat} (hc : c ≠ 0) {e : Int} (he : e < 0) :
    ∃ whole fraction, Binary64.positional c e = whole ++ '.' :: fraction ∧
      Pointed whole fraction c e := by
  obtain ⟨n, rfl, hn⟩ : ∃ n : Nat, e = -n ∧ n ≠ 0 := ⟨(-e).toNat, by omega, by omega⟩
  obtain ⟨d, ds, hds, hd⟩ := exists_toDigits hc
  have hdigits : ∀ d ∈ Nat.toDigits 10 c, d.isDigit = true := fun _ => Binary64.isDigit_toDigits
  have hvalue := digitsValue_toDigits c
  simp only [Binary64.positional, Int.neg_neg, Int.toNat_natCast, if_neg hn]
  split
  · next hlt =>
    refine ⟨_, _, rfl, fun d hd => hdigits d (List.mem_of_mem_take hd),
      fun d hd => hdigits d (List.mem_of_mem_drop hd), ?_, ?_, ?_⟩
    · obtain ⟨k, hk⟩ : ∃ k, (Nat.toDigits 10 c).length - n = k + 1 :=
        ⟨(Nat.toDigits 10 c).length - n - 1, by omega⟩
      rw [hk, hds, List.take_succ_cons]
      exact plainDigits_cons hd _
    · rw [ne_eq, List.drop_eq_nil_iff]
      omega
    · have hlength : ((Nat.toDigits 10 c).drop ((Nat.toDigits 10 c).length - n)).length = n := by
        rw [List.length_drop]
        omega
      rw [List.take_append_drop, hvalue, hlength]
  · next hlt =>
    have hzeros : ∀ d ∈ List.replicate (n - (Nat.toDigits 10 c).length) '0', d.isDigit = true := by
      intro d hd
      rw [List.eq_of_mem_replicate hd]
      rfl
    refine ⟨['0'], _, rfl, isDigit_zero,
      fun d hd => (List.mem_append.mp hd).elim (hzeros d) (hdigits d), rfl, ?_, ?_⟩
    · simp [hds]
    · have hlength : (List.replicate (n - (Nat.toDigits 10 c).length) '0' ++
          Nat.toDigits 10 c).length = n := by
        rw [List.length_append, List.length_replicate]
        omega
      have hzero : digitsValue ['0'] = 0 := rfl
      rw [digitsValue_append, digitsValue_append, digitsValue_zeros, hvalue, hzero, hlength]
      simp

/-- A finite number is written with a point and digits on both sides, and these are worth it. -/
theorem exists_pointed {x : Binary64} (hfinite : x.isFinite = true) :
    ∃ whole fraction, (writeReal x).toList = minus x.negative ++ (whole ++ '.' :: fraction) ∧
      (∀ d ∈ whole, d.isDigit = true) ∧ (∀ d ∈ fraction, d.isDigit = true) ∧
      plainDigits whole = true ∧ fraction ≠ [] ∧
      Binary64.ofDecimal? x.negative (whole ++ fraction) (-fraction.length) = some x := by
  have hliteral : x.literal.toList = minus x.negative ++ x.magnitudeDigits := by
    rw [Binary64.literal_eq hfinite]
    cases x.negative <;> simp [minus]
  cases hx : x.isZero with
  | true =>
    obtain ⟨negative, exponent, fraction⟩ := x
    obtain ⟨rfl, rfl⟩ : exponent = 0 ∧ fraction = 0 := by simpa [Binary64.isZero] using hx
    refine ⟨['0'], ['0'], ?_, isDigit_zero, isDigit_zero, rfl, by simp, rfl⟩
    cases negative <;> decide +kernel
  | false =>
    have hc := Binary64.shortest_ne_zero hx
    have hin := Binary64.shortest_contains hx
    have hread : ∀ {whole fraction},
        Pointed whole fraction x.interval.shortest.1 x.interval.shortest.2 →
        Binary64.ofDecimal? x.negative (whole ++ fraction) (-fraction.length) = some x := by
      intro whole fraction h
      refine Binary64.ofDecimal?_of_contains hfinite hx (fun d hd => ?_) (h.value ▸ hin)
      exact (List.mem_append.mp hd).elim (h.whole_digits d) (h.fraction_digits d)
    rw [Binary64.magnitudeDigits_eq hx] at hliteral
    unfold writeReal
    split
    · next hwhole =>
      have h := pointed_whole hc (Binary64.shortest_of_isWhole hfinite hx hwhole)
      refine ⟨_, _, ?_, h.whole_digits, h.fraction_digits, h.plain, h.fraction_ne, hread h⟩
      rw [String.toList_append, hliteral, List.append_assoc]
      rfl
    · next hwhole =>
      have he : x.interval.shortest.2 < 0 := by
        by_contra hneg
        obtain ⟨n, hn⟩ : ∃ n : Nat, x.interval.shortest.2 = n :=
          ⟨x.interval.shortest.2.toNat, by omega⟩
        rw [hn, zpow_natCast] at hin
        exact hwhole (Binary64.isWhole_of_contains hfinite hx (n := x.interval.shortest.1 * 10 ^ n)
          (by exact_mod_cast hin))
      obtain ⟨whole, fraction, htext, h⟩ := exists_pointed_positional hc he
      exact ⟨whole, fraction, by rw [hliteral, htext], h.whole_digits, h.fraction_digits, h.plain,
        h.fraction_ne, hread h⟩

theorem readNumber_real {x : Binary64} (hfinite : x.isFinite = true) {rest : List Char}
    (hrest : Ends rest) : readNumber ((writeReal x).toList ++ rest) = some (real x, rest) := by
  obtain ⟨whole, fraction, htext, hwhole, hfraction, hplain, hne, hvalue⟩ := exists_pointed hfinite
  obtain ⟨htake, hdrop⟩ := Binary64.takeWhile_digits hfraction rest fun c hc => (hrest c hc).1
  have hpointed : takePointed? ('.' :: fraction ++ rest) = some ('.' :: fraction, rest) := by
    simp [takePointed?, htake, hdrop, hne]
  have hread : Binary64.read? (String.ofList (minus x.negative ++ whole ++ '.' :: fraction ++ [])) =
      some x := by
    rw [List.append_nil, List.append_assoc, ← hvalue]
    exact Binary64.read?_pointed x.negative hwhole hfraction (plainDigits_ne_nil hplain)
  rw [htext, List.append_assoc, List.append_assoc, readNumber_eq x.negative hwhole hplain (by simp),
    hpointed]
  simp only [Option.bind_eq_bind, Option.bind_some, takeExponent?_of_ends hrest, hread]
  rfl

theorem toList_toString (n : Int) :
    (toString n).toList = minus (n < 0) ++ Nat.toDigits 10 n.natAbs := by
  cases n with
  | ofNat n => exact Nat.toList_repr
  | negSucc n =>
    have htext : toString (Int.negSucc n) = "-" ++ toString (n + 1) := rfl
    rw [htext, String.toList_append, Nat.toString_eq_repr, Nat.toList_repr]
    simp [minus, Int.negSucc_lt_zero]

theorem readNumber_int {n : Int} (hfinite : (Binary64.ofInt n).isFinite = true) {rest : List Char}
    (hrest : Ends rest) : readNumber ((toString n).toList ++ rest) = some (int n, rest) := by
  have hdigits : ∀ d ∈ Nat.toDigits 10 n.natAbs, d.isDigit = true :=
    fun _ => Binary64.isDigit_toDigits
  have hplain : plainDigits (Nat.toDigits 10 n.natAbs) = true := by
    by_cases hzero : n.natAbs = 0
    · rw [hzero]
      rfl
    · obtain ⟨d, ds, hds, hd⟩ := exists_toDigits hzero
      rw [hds]
      exact plainDigits_cons hd ds
  have hvalue := digitsValue_toDigits n.natAbs
  rw [Binary64.isFinite_ofInt (n < 0) hdigits hvalue,
    ← Binary64.read?_digits _ hdigits (plainDigits_ne_nil hplain)] at hfinite
  obtain ⟨x, hx⟩ := Option.isSome_iff_exists.mp hfinite
  have hread : Binary64.read? (String.ofList (minus (n < 0) ++ Nat.toDigits 10 n.natAbs ++ [] ++ [])) =
      some x := by
    rw [List.append_nil, List.append_nil]
    exact hx
  rw [toList_toString, List.append_assoc, readNumber_eq _ hdigits hplain fun c hc => (hrest c hc).1,
    takePointed?_of_ends hrest]
  simp only [Option.bind_eq_bind, Option.bind_some, takeExponent?_of_ends hrest, hread, hvalue]
  by_cases hnegative : n < 0
  · have hne : Nat.toDigits 10 n.natAbs ≠ ['0'] := by
      intro hzero
      rw [hzero] at hvalue
      have hnil : digitsValue ['0'] = 0 := rfl
      omega
    simp [hnegative, hne, abs_of_neg hnegative]
  · simp [hnegative, abs_of_nonneg (Int.not_lt.mp hnegative)]

theorem isFinite_of_readNumber {cs rest : List Char} {v : Json} (h : readNumber cs = some (v, rest)) :
    (∃ n, v = int n ∧ (Binary64.ofInt n).isFinite = true) ∨ ∃ x, v = real x ∧ x.isFinite = true := by
  unfold readNumber at h
  split at h
  next negative cs' heq =>
  dsimp only at h
  by_cases hplain : plainDigits (cs'.takeWhile Char.isDigit) = true
  · rw [hplain, Bool.not_true, if_neg Bool.false_ne_true] at h
    obtain ⟨⟨fraction, pointed⟩, -, hexponent⟩ := Option.bind_eq_some_iff.mp h
    obtain ⟨⟨exponent, after⟩, -, hnumber⟩ := Option.bind_eq_some_iff.mp hexponent
    obtain ⟨x, hx, hresult⟩ := Option.bind_eq_some_iff.mp hnumber
    dsimp only at hx hresult
    by_cases hreal : (!fraction.isEmpty || !exponent.isEmpty ||
        (negative && cs'.takeWhile Char.isDigit = ['0'])) = true
    · rw [if_pos hreal] at hresult
      obtain ⟨rfl, -⟩ := Prod.mk.inj (Option.some.inj hresult)
      exact .inr ⟨x, rfl, Binary64.isFinite_read? hx⟩
    · rw [if_neg hreal] at hresult
      simp only [Bool.or_eq_true, not_or, Bool.not_eq_true', Bool.not_eq_false,
        List.isEmpty_iff] at hreal
      rw [hreal.1.1, hreal.1.2, List.append_nil, List.append_nil] at hx
      have hdigits : ∀ d ∈ cs'.takeWhile Char.isDigit, d.isDigit = true :=
        List.all_eq_true.mp List.all_takeWhile
      have hsome := (Binary64.read?_digits negative hdigits (plainDigits_ne_nil hplain)).symm.trans hx
      have hfinite : ∀ n : Int, digitsValue (cs'.takeWhile Char.isDigit) = n.natAbs →
          (Binary64.ofInt n).isFinite = true := by
        intro n hn
        rw [Binary64.isFinite_ofInt negative hdigits hn, hsome]
        rfl
      left
      split at hresult
      · obtain ⟨rfl, -⟩ := Prod.mk.inj (Option.some.inj hresult)
        exact ⟨_, rfl, hfinite _ (by omega)⟩
      · obtain ⟨rfl, -⟩ := Prod.mk.inj (Option.some.inj hresult)
        exact ⟨_, rfl, hfinite _ (by omega)⟩
  · rw [Bool.not_eq_true] at hplain
    rw [hplain, Bool.not_false, if_pos rfl] at h
    exact nomatch h

end JokerRules.Json
