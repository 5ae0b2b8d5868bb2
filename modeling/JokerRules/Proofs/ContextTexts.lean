import JokerRules.Proofs.ContextUses

/-! Texts that leave the event alone, and texts that use it as one of their parts does. Names,
numbers and literals are of the first kind, amounts put together around a reading of the second. -/

namespace JokerRules.ContextUses

open Text Brackets Tokens

section Within

variable {A : Use → Prop}

theorem Reading.start_eq_plain {t : Token} (h : t ∉ [context, ['.'], [':']]) :
    Reading.start t = .plain := by
  simp only [List.mem_cons, List.not_mem_nil, or_false, not_or] at h
  rw [Reading.start, if_neg h.1, if_neg (by simp [h.2.1, h.2.2])]

theorem within_token {text : String} {t : Token} (hcomplete : Complete text)
    (htokens : tokens text = [t]) (ht : t ∉ [context, ['.'], [':']]) : Within A text := by
  have hclosed : Closed text := by
    refine ⟨hcomplete, ?_⟩
    rw [htokens]
    exact Reading.start_eq_plain ht
  refine ⟨hclosed, ?_⟩
  rw [hclosed.uses_eq, htokens]
  simp [usesFrom, Reading.found]

theorem within_quoteWith (d : Delimiter) (s : String) : Within A (quoteWith d.char s) := by
  refine within_token (complete_of_neutral (neutral_quoteWith d s)) (tokens_quoteWith d s) ?_
  rw [quoteWith, String.toList_ofList]
  cases d <;> simp [context, Delimiter.char]

theorem within_quote (s : String) : Within A (quote s) :=
  within_quoteWith .double s

theorem within_singleQuoted (s : String) : Within A (singleQuoted s) :=
  within_quoteWith .single s

theorem usesFrom_eq_nil {ts : List Token} (h : context ∉ ts) {r : Reading}
    (hr : r = .plain ∨ r = .field) : usesFrom r ts = [] := by
  induction ts generalizing r with
  | nil => rfl
  | cons t ts ih =>
    obtain ⟨ht, hts⟩ := not_or.mp (List.mem_cons.not.mp h)
    have hnext : r.next t = .plain ∨ r.next t = .field := by
      rcases hr with rfl | rfl
      · simp only [Reading.next, Reading.start, if_neg (Ne.symm ht)]
        split <;> simp
      · exact .inl rfl
    have hfound : r.found t = [] := by rcases hr with rfl | rfl <;> rfl
    rw [usesFrom, hfound, ih hts hnext]
    rfl

theorem mem_of_mem_tokensFrom {mode : Mode} {cs : List Char} {t : Token} (ht : t ∈ tokensFrom mode cs)
    {c : Char} (hc : c ∈ t) : c ∈ cs := by
  induction cs generalizing mode t with
  | nil => cases ht
  | cons d cs ih =>
    rw [tokensFrom] at ht
    split at ht
    · cases hrest : tokensFrom (nextMode mode (classOf d)) cs with
      | nil =>
        rw [hrest, extendFirst, List.mem_singleton] at ht
        rw [ht, List.mem_singleton] at hc
        simp [hc]
      | cons u us =>
        rw [hrest, extendFirst, List.mem_cons] at ht
        rcases ht with rfl | ht
        · rcases List.mem_cons.mp hc with rfl | hc
          · simp
          · exact List.mem_cons_of_mem _ (ih (hrest ▸ List.mem_cons_self) hc)
        · exact List.mem_cons_of_mem _ (ih (hrest ▸ List.mem_cons_of_mem _ ht) hc)
    · split at ht
      · exact List.mem_cons_of_mem _ (ih ht hc)
      · rcases List.mem_cons.mp ht with rfl | ht
        · rw [List.mem_singleton.mp hc]
          exact List.mem_cons_self
        · exact List.mem_cons_of_mem _ (ih ht hc)

theorem isNameChar_digit {c : Char} (h : 48 ≤ c.toNat ∧ c.toNat ≤ 57) : isNameChar c = true :=
  isNameChar_iff.mpr (.inr (.inr (.inl h)))

theorem start_digits {ds : List Char} (hds : ds ≠ []) (h : ∀ c ∈ ds, 48 ≤ c.toNat ∧ c.toNat ≤ 57) :
    ds ∉ [context, ['.'], [':']] := by
  obtain ⟨c, cs, rfl⟩ := List.exists_cons_of_ne_nil hds
  have hc := h c List.mem_cons_self
  intro hmem
  simp only [context, List.mem_cons, List.not_mem_nil, or_false] at hmem
  rcases hmem with hmem | hmem | hmem <;> cases hmem <;> revert hc <;> decide

/-- A numeral that ends in a digit. -/
theorem within_numeral (xs : List Char) {ds : List Char} (hxs : xs = [] ∨ xs.getLast? = some '.')
    (hpoint : ∀ c ∈ xs, c = '.' ∨ (48 ≤ c.toNat ∧ c.toNat ≤ 57)) (hds : ds ≠ [])
    (hdigits : ∀ c ∈ ds, 48 ≤ c.toNat ∧ c.toNat ≤ 57) : Within A (String.ofList (xs ++ ds)) := by
  have hchars : ∀ c ∈ xs ++ ds, c.toNat ∈ [45, 46] ∨ (48 ≤ c.toNat ∧ c.toNat ≤ 57) := by
    intro c hc
    rcases List.mem_append.mp hc with hc | hc
    · rcases hpoint c hc with rfl | hc
      · exact .inl (by decide)
      · exact .inr hc
    · exact .inr (hdigits c hc)
  have hletter : context ∉ tokensFrom .code (xs ++ ds) := by
    intro hmem
    have hx := hchars 'x' (mem_of_mem_tokensFrom hmem (by decide))
    revert hx
    decide
  have hmode : modeAfter .code xs = .code := by
    have hxs : Operand (String.ofList xs) :=
      operand_numeral fun c hc => hchars c (List.mem_append_left _ hc)
    have hcomplete := complete_of_neutral hxs.neutral
    rwa [Complete, String.toList_ofList] at hcomplete
  have hcut : xs.getLast?.any isNameChar = false := by
    rcases hxs with rfl | hlast
    · rfl
    · rw [hlast]
      decide
  have htokens : tokens (String.ofList (xs ++ ds)) = tokensFrom .code xs ++ [ds] := by
    rw [tokens, String.toList_ofList, tokensFrom_append hmode (.inl hcut),
      tokensFrom_name hds fun c hc => isNameChar_digit (hdigits c hc)]
  have hclosed : Closed (String.ofList (xs ++ ds)) := by
    refine ⟨complete_of_neutral (operand_numeral hchars).neutral, ?_⟩
    have hlast : ∀ r : Reading, r.next ds = .plain := by
      have hstart := Reading.start_eq_plain (start_digits hds hdigits)
      have hpoint : ds ≠ ['.'] := fun h => start_digits hds hdigits (by simp [h])
      intro r
      cases r <;> simp [Reading.next, hstart, hpoint]
    rw [htokens, Reading.after_append]
    exact hlast _
  refine ⟨hclosed, ?_⟩
  rw [hclosed.uses_eq, tokens, String.toList_ofList, usesFrom_eq_nil hletter (.inl rfl)]
  simp

theorem within_positional (coefficient : Nat) (exponent : Int) :
    Within A (String.ofList (Binary64.positional coefficient exponent)) := by
  have hdigits : ∀ c ∈ Nat.toDigits 10 coefficient, 48 ≤ c.toNat ∧ c.toNat ≤ 57 := fun c hc =>
    mem_digits hc
  have hne : Nat.toDigits 10 coefficient ≠ [] := Nat.toDigits_ne_nil
  have hzero : ∀ n, ∀ c ∈ List.replicate n '0', 48 ≤ c.toNat ∧ c.toNat ≤ 57 := by
    intro n c hc
    rw [List.eq_of_mem_replicate hc]
    decide
  simp only [Binary64.positional]
  split
  · refine within_numeral [] (.inl rfl) (by simp) (by simp [hne]) fun c hc => ?_
    exact (List.mem_append.mp hc).elim (hdigits c) (hzero _ c)
  split
  · next hplaces hlength =>
    rw [List.append_cons]
    refine within_numeral _ (.inr (by simp)) (fun c hc => ?_) (by simp; omega)
      fun c hc => hdigits c (List.mem_of_mem_drop hc)
    rcases List.mem_append.mp hc with hc | hc
    · exact .inr (hdigits c (List.mem_of_mem_take hc))
    · exact .inl (List.mem_singleton.mp hc)
  · refine within_numeral ['0', '.'] (.inr rfl) (by simp) (by simp [hne]) fun c hc => ?_
    exact (List.mem_append.mp hc).elim (hzero _ c) (hdigits c)

theorem within_number (x : Binary64) : Within A x.literal := by
  have hdigits : Within A (String.ofList x.magnitudeDigits) := by
    unfold Binary64.magnitudeDigits
    split
    · exact within_fixed rfl
    · exact within_positional _ _
  unfold Binary64.literal
  split
  · exact within_fixed rfl
  split
  · split <;> exact within_fixed rfl
  split
  · rw [← List.singleton_append, String.ofList_append]
    exact within_template [.fixed _, .hole _ hdigits] rfl
  · exact hdigits

theorem within_toString_nat (n : Nat) : Within A (toString n) := by
  rw [← String.ofList_toList (s := toString n), toList_toString_nat]
  exact within_numeral [] (.inl rfl) (by simp) Nat.toDigits_ne_nil fun c hc => mem_digits hc

theorem within_literal (v : Value) : Within A v.literal := by
  cases v with
  | bool b => cases b <;> exact within_fixed rfl
  | int n =>
    show Within A (toString n.toInt)
    cases n.toInt with
    | ofNat n => exact within_toString_nat n
    | negSucc n => exact within_template [.fixed _, .hole _ (within_toString_nat (n + 1))] rfl
  | real x => exact within_number x
  | str s => exact within_quote s

/-- A slot may have the name of the event: it is a field of another table. -/
theorem within_read {name : String} (hne : name ≠ "") (h : ∀ c ∈ name.toList, isNameChar c = true) :
    Within A (Slot.read name) := by
  have htokens := tokens_read hne h
  have hclosed : Closed (Slot.read name) := by
    refine ⟨complete_read h, ?_⟩
    rw [htokens, Reading.after_append]
    rfl
  have huses : uses (Slot.read name) = [] := by
    rw [hclosed.uses_eq, htokens, usesFrom_append]
    rfl
  exact ⟨hclosed, by simp [huses]⟩

theorem within_drawn (seed : String) {low high : String} (hlow : Within A low)
    (hhigh : Within A high) : Within A (Amount.drawn seed low high).expr :=
  within_template [.fixed _, .hole _ (within_singleQuoted seed), .fixed _, .hole _ hlow, .fixed _,
    .hole _ hhigh, .fixed _] rfl

end Within

structure Echoes (part text : String) : Prop where
  closed : Closed text
  uses_iff : ∀ u, u ∈ uses text ↔ u ∈ uses part

theorem Closed.echoes {part : String} (h : Closed part) : Echoes part part :=
  ⟨h, fun _ => Iff.rfl⟩

theorem Echoes.within {part text : String} (h : Echoes part text) : Within (· ∈ uses part) text :=
  ⟨h.closed, fun u hu => (h.uses_iff u).mp hu⟩

theorem Echoes.uses_eq_nil_iff {part text : String} (h : Echoes part text) :
    uses text = [] ↔ uses part = [] := by
  simp only [List.eq_nil_iff_forall_not_mem, h.uses_iff]

theorem echoes_template {part : String} (ps : List (Part (Within (· ∈ uses part))))
    (h : templateUses? ps = some []) (hpart : ∃ text ∈ holes ps, Echoes part text) :
    Echoes part (Part.template ps) := by
  refine ⟨(within_template ps h).closed, fun u => ⟨(within_template ps h).allowed u, fun hu => ?_⟩⟩
  obtain ⟨text, htext, hechoes⟩ := hpart
  have huses := (closed_template (fun _ h => h.closed) h).2
  exact (huses u).mpr (.inr ⟨text, htext, (hechoes.uses_iff u).mpr hu⟩)

theorem echoes_unlines {part : String} {texts : List String} (hne : texts ≠ [])
    (h : ∀ text ∈ texts, Echoes part text) : Echoes part (unlines texts) := by
  induction texts with
  | nil => exact absurd rfl hne
  | cons text texts ih =>
    obtain ⟨hfirst, hrest⟩ := List.forall_mem_cons.mp h
    cases texts with
    | nil => simpa [unlines] using hfirst
    | cons next texts =>
      have hrest : Echoes part ("\n".intercalate (next :: texts)) := ih (by simp) hrest
      rw [unlines, String.intercalate_cons_cons]
      exact echoes_template [.hole _ hfirst.within, .fixed _, .hole _ hrest.within] rfl
        ⟨text, by simp [holes], hfirst⟩

theorem echoes_affine {reading offsetExpr : String} (hreading : Closed reading)
    (hoffset : Within (· ∈ uses reading) offsetExpr) (multiplier offset : Binary64) :
    Echoes reading (Amount.affine reading multiplier offset offsetExpr) := by
  have hself := hreading.echoes
  have hmultiplier : Within (· ∈ uses reading) multiplier.literal := within_number multiplier
  unfold Amount.affine
  split
  · split
    · exact hself
    · exact echoes_template [.fixed _, .hole _ hself.within, .fixed _, .hole _ hmultiplier] rfl
        ⟨reading, by simp [holes], hself⟩
  · split
    · exact echoes_template [.hole _ hoffset, .fixed _, .hole _ hself.within, .fixed _] rfl
        ⟨reading, by simp [holes], hself⟩
    · exact echoes_template
        [.hole _ hoffset, .fixed _, .hole _ hself.within, .fixed _, .hole _ hmultiplier] rfl
        ⟨reading, by simp [holes], hself⟩

end JokerRules.ContextUses
