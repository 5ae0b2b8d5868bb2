import JokerRules.Proofs.Brackets.Names

/-! Amounts. Authored texts are quoted, and the readings of the game's own state have balanced
brackets and no joiner outside them. -/

namespace JokerRules

open Text Brackets

namespace Brackets

theorem get?_foldl_register {rows : List (String × String × String)} {r : Registry} {id : String}
    {var : GameVariable}
    (h : (rows.foldl (fun r (row : String × String × String) =>
      Registry.register r row.1 row.2.1 row.2.2) r).get? id = some var) :
    r.get? id = some var ∨ ∃ row ∈ rows, id = row.1 ∧ var = ⟨row.2.1, row.2.2⟩ := by
  induction rows generalizing r with
  | nil => exact .inl h
  | cons row rows ih =>
    rcases ih h with hr | ⟨row', hrow', rfl, rfl⟩
    · simp only [Registry.register, Keyed.get?_insert] at hr
      split at hr
      · next hid =>
        cases hr
        exact .inr ⟨row, List.mem_cons_self, hid, rfl⟩
      · exact .inl hr
    · exact .inr ⟨row', List.mem_cons_of_mem _ hrow', rfl, rfl⟩

theorem row_of_get?_builtin {id : String} {var : GameVariable}
    (h : Registry.builtin.get? id = some var) :
    ∃ row ∈ Registry.builtinTable, id = row.1 ∧ var = ⟨row.2.1, row.2.2⟩ := by
  rcases get?_foldl_register h with h | h
  · simp [Registry.empty] at h
  · exact h

theorem get?_builtin {id : String} {var : GameVariable}
    (h : Registry.builtin.get? id = some var) :
    ∃ row ∈ Registry.builtinTable, var = ⟨row.2.1, row.2.2⟩ := by
  obtain ⟨row, hrow, -, hvar⟩ := row_of_get?_builtin h
  exact ⟨row, hrow, hvar⟩

theorem caseRuns_ascii : ∀ run ∈ caseRuns,
    128 ≤ run.first ∨ run.first = 65 ∧ run.last = 90 ∧ run.shift = 32 := by
  decide +kernel

theorem lowerChar_of_isAlpha {c : Char} (hc : c.isAlpha = true) : lowerChar c = [c.toLower] := by
  have hrange : (65 ≤ c.toNat ∧ c.toNat ≤ 90) ∨ (97 ≤ c.toNat ∧ c.toNat ≤ 122) := by
    simpa [Char.isAlpha, Char.isUpper, Char.isLower, UInt32.le_iff_toNat_le] using hc
  have hlower := toNat_toLower c
  rw [lowerChar, if_neg (by omega)]
  split
  · next run hrun =>
    have hcovers : (run.first ≤ c.toNat ∧ c.toNat ≤ run.last) := by
      have := List.find?_some hrun
      simp only [CaseRun.covers, Bool.and_eq_true, decide_eq_true_eq] at this
      exact this.1
    have hrun := caseRuns_ascii run (List.mem_of_find?_eq_some hrun)
    obtain ⟨hfirst, hlast, hshift⟩ := hrun.resolve_left (by omega)
    have hsum : (c.toNat + run.shift).toNat = c.toNat + 32 := by omega
    have hnat : (Char.ofNat (c.toNat + 32)).toNat = c.toNat + 32 := by
      rw [Char.ofNat, dif_pos (.inl (by omega))]
      rfl
    rw [if_pos (by omega)] at hlower
    rw [hsum, Char.toNat_inj.mp (hnat.trans hlower.symm)]
  · next hnone =>
    have hcapital : ¬(65 ≤ c.toNat ∧ c.toNat ≤ 90) := by
      intro hcapital
      have hfind := List.find?_eq_none.mp hnone ⟨65, 90, 1, 32⟩ List.mem_cons_self
      simp [CaseRun.covers, hcapital] at hfind
      omega
    rw [if_neg hcapital] at hlower
    rw [Char.toNat_inj.mp hlower]

/-- The letters of a label in lower case. -/
theorem offsetName_eq {label : String}
    (h : ∀ c ∈ label.toList, c.isAlpha = true ∨ isBlank c = true) :
    offsetName label = String.ofList ((label.toList.filter fun c => !isBlank c).map Char.toLower) := by
  have hletters : ∀ c ∈ label.toList.filter fun c => !isBlank c, lowerChar c = [c.toLower] := by
    intro c hc
    obtain ⟨hmem, hblank⟩ := List.mem_filter.mp hc
    exact lowerChar_of_isAlpha ((h c hmem).resolve_right (by simpa using hblank))
  rw [offsetName, List.flatMap_congr hletters, ← List.map_eq_flatMap]

theorem mem_offsetName {label : String}
    (h : ∀ c ∈ label.toList, c.isAlpha = true ∨ isBlank c = true) {d : Char}
    (hd : d ∈ (offsetName label).toList) : 97 ≤ d.toNat ∧ d.toNat ≤ 122 := by
  rw [offsetName_eq h, String.toList_ofList] at hd
  obtain ⟨c, hc, rfl⟩ := List.mem_map.mp hd
  obtain ⟨hmem, hblank⟩ := List.mem_filter.mp hc
  have halpha := (h c hmem).resolve_right (by simpa using hblank)
  have hrange : (65 ≤ c.toNat ∧ c.toNat ≤ 90) ∨ (97 ≤ c.toNat ∧ c.toNat ≤ 122) := by
    simpa [Char.isAlpha, Char.isUpper, Char.isLower, UInt32.le_iff_toNat_le] using halpha
  rw [toNat_toLower]
  split <;> omega

theorem solid_offsetName {label : String}
    (h : ∀ c ∈ label.toList, c.isAlpha = true ∨ isBlank c = true) : Solid (offsetName label) := by
  intro c hc
  have hrange := mem_offsetName h hc
  exact solid_char (by omega)

theorem operand_builtinTable : ∀ row ∈ Registry.builtinTable, Operand row.2.1 := by
  simp only [Registry.builtinTable, List.forall_mem_cons]
  refine ⟨?_, ?_, ?_, ?_, ?_, ?_, ?_, ?_, ?_, ?_, ?_, ?_, ?_, ?_, ?_, ?_, ?_, ?_, ?_, ?_, ?_,
    by simp⟩
  all_goals exact operand_fixed rfl

theorem label_builtinTable : ∀ row ∈ Registry.builtinTable,
    ∀ c ∈ row.2.2.toList, c.isAlpha = true ∨ isBlank c = true := by
  have hall : ∀ row ∈ Registry.builtinTable,
      row.2.2.toList.all (fun c => c.isAlpha || isBlank c) = true := by
    decide +kernel
  intro row hrow c hc
  simpa using List.all_eq_true.mp (hall row hrow) c hc

theorem builtin_get? {id : String} {var : GameVariable}
    (h : Registry.builtin.get? id = some var) :
    Operand var.template ∧ Solid (offsetName var.label) := by
  obtain ⟨row, hrow, rfl⟩ := get?_builtin h
  exact ⟨operand_builtinTable row hrow, solid_offsetName (label_builtinTable row hrow)⟩

theorem operand_affine {template offsetExpr : String} (htemplate : Operand template)
    (hoffset : Operand offsetExpr) (multiplier offset : Binary64) :
    Operand (Amount.affine template multiplier offset offsetExpr) := by
  have hmultiplier := operand_number multiplier
  have hinner := htemplate.neutral
  unfold Amount.affine
  split
  · split
    · exact htemplate
    · exact operand_joined [.fixed _, .enclosed _ hinner, .fixed _, .operand _ hmultiplier] rfl
  · split
    · exact operand_joined [.operand _ hoffset, .fixed _, .enclosed _ hinner, .fixed _] rfl
    · exact operand_joined
        [.operand _ hoffset, .fixed _, .enclosed _ hinner, .fixed _, .operand _ hmultiplier] rfl

theorem operand_drawn (seed : String) {low high : String} (hlow : Neutral low)
    (hhigh : Neutral high) : Operand (Amount.drawn seed low high).expr :=
  operand_joined [.fixed _, .enclosed _ (neutral_singleQuoted seed), .fixed _, .enclosed _ hlow,
    .fixed _, .enclosed _ hhigh, .fixed _] rfl

theorem operand_ofOperand (value : Value) :
    Operand (Amount.ofOperand value Registry.builtin).expr := by
  unfold Amount.ofOperand
  split
  · next raw =>
    split
    · split
      · next id multiplier offset _ =>
        split
        · next var hvar =>
          exact operand_affine (builtin_get? hvar).1 (operand_number offset) multiplier offset
        · exact operand_fixed rfl
      · next min max _ =>
        exact operand_drawn _ (operand_number min).neutral (operand_number max).neutral
      · exact operand_fixed rfl
    · split
      · next x _ => exact operand_number x
      · split
        · exact operand_fixed rfl
        · exact operand_read (solid_identifier raw)
  · exact operand_literal value

/-- Captured variables are held in locals with plain names. -/
def PlainCaptures (captures : Captures) : Prop :=
  ∀ name held, captures.get? name = some held → Plain held

/-- The amount can stand anywhere, and its slots have plain names. -/
structure TidyAmount (r : Resolved) : Prop where
  expr : Neutral r.amount.expr
  slots : ∀ slot ∈ r.newSlots, Plain slot.name

theorem tidy_ofGameState (id : String) (multiplier offset : Binary64) :
    TidyAmount (Resolved.ofGameState id multiplier offset Registry.builtin) := by
  unfold Resolved.ofGameState
  split
  · exact ⟨neutral_fixed rfl, by simp⟩
  · next var hvar =>
    obtain ⟨htemplate, hname⟩ := builtin_get? hvar
    have hexpr := (operand_affine htemplate (operand_read hname) multiplier offset).neutral
    by_cases hzero : offset.equals (.zero false) = true
    · simp only [hzero, if_true]
      exact ⟨hexpr, by simp⟩
    · simp only [hzero]
      exact ⟨hexpr, by simpa using hname.plain⟩

theorem tidy_ofRange (min max : Binary64) (effectId : String) {hint : String} (h : Plain hint) :
    TidyAmount (Resolved.ofRange min max effectId hint) := by
  have hlow : Plain (hint ++ "_min") := h.append (plain_fixed (by decide))
  have hhigh : Plain (hint ++ "_max") := h.append (plain_fixed (by decide))
  refine ⟨(operand_drawn _ (plain_read hlow).neutral (plain_read hhigh).neutral).neutral, ?_⟩
  simpa [Resolved.ofRange] using ⟨hlow, hhigh⟩

theorem tidy_ofReference (raw : String) {captures : Captures} (h : PlainCaptures captures) :
    TidyAmount (Resolved.ofReference raw captures) := by
  simp only [Resolved.ofReference]
  split
  · exact ⟨neutral_fixed rfl, by simp⟩
  · refine ⟨?_, by simp⟩
    dsimp only
    split
    · next held hheld => exact (h _ held hheld).neutral
    · exact (plain_read (plain_identifier raw)).neutral

theorem tidy_ofLiteral (initial : Value) {hint : String} (h : Plain hint) :
    TidyAmount (Resolved.ofLiteral initial hint) :=
  ⟨(plain_read h).neutral, by simpa [Resolved.ofLiteral] using h⟩

theorem tidy_ofValue (value : Value) (effectId : String) {hint : String} (hhint : Plain hint)
    {captures : Captures} (hcaptures : PlainCaptures captures) :
    TidyAmount (Resolved.ofValue value effectId hint Registry.builtin captures) := by
  unfold Resolved.ofValue
  split
  · next raw =>
    split
    · split
      · exact tidy_ofGameState _ _ _
      · exact tidy_ofRange _ _ _ hhint
      · exact ⟨neutral_fixed rfl, by simp⟩
    · split
      · exact tidy_ofLiteral _ hhint
      · exact tidy_ofReference raw hcaptures
  · exact tidy_ofLiteral _ hhint

theorem plain_conflicts {effects : List Effect} {name : String}
    (h : name ∈ Capture.conflicts effects) : Plain name := by
  have hreads : NameSet.contains (Capture.reads effects) name = true :=
    (Keyed.mem_keys_iff _ _).mp (List.mem_filter.mp h).1
  obtain ⟨e, -, he⟩ := List.mem_flatMap.mp (NameSet.contains_ofNames.mp hreads)
  obtain ⟨⟨key, value⟩, -, hread⟩ := List.mem_filterMap.mp he
  unfold Capture.readName? at hread
  split at hread
  · split at hread
    · simp at hread
    · split at hread
      · simp at hread
      · cases hread
        exact plain_identifier _
  · simp at hread

theorem plain_localOf {name : String} (h : Plain name) : Plain (Capture.localOf name) :=
  h.append (plain_fixed (by decide))

theorem plainCaptures (effects : List Effect) : PlainCaptures (Capture.captures effects) := by
  intro name held h
  obtain ⟨conflict, hconflict, hpair⟩ := List.mem_map.mp (Keyed.mem_of_get?_ofList h)
  cases hpair
  exact plain_localOf (plain_conflicts hconflict)

theorem neutral_captureStatements (effects : List Effect) :
    ∀ statement ∈ Capture.statements effects, Neutral statement := by
  intro statement hstatement
  obtain ⟨name, hname, rfl⟩ := List.mem_map.mp hstatement
  have hplain := plain_conflicts hname
  exact neutral_template [.fixed _, .word _ (plain_localOf hplain), .fixed _,
    .word _ (plain_read hplain)] rfl

end Brackets

end JokerRules
