import JokerRules.Proofs.Fragments

/-! Effects and conditions read values alike. An effect reads a slot where a condition has a literal
in place, so the two agree as long as each slot holds the literal that it starts with. -/

namespace JokerRules

open Expressions

def Encoding.isRange : Encoding → Bool
  | range .. => true
  | gameState .. => false

/-- Whether a value is the encoding of a range, which is drawn anew at each reading. -/
def Value.isRange : Value → Bool
  | str raw => (Encoding.parse raw).toOption.any Encoding.isRange
  | _ => false

/-- The values that nothing can be read from. -/
inductive FallsBack (registry : Registry) : Value → Prop
  | malformed {raw : String} (hmarked : Encoding.isMarked raw = true) (h : Encoding.Nameless raw) :
      FallsBack registry (.str raw)
  | unknown {raw id : String} {multiplier offset : Binary64}
      (hparse : Encoding.parse raw = .ok (.gameState id multiplier offset))
      (h : registry.get? id = none) : FallsBack registry (.str raw)
  | nameless {raw : String} (hmarked : Encoding.isMarked raw = false)
      (hnumber : (Value.str raw).number? = none) (h : Text.identifier raw = "") :
      FallsBack registry (.str raw)

theorem isFinite_number? {raw : String} {x : Binary64} (h : (Value.str raw).number? = some x) :
    x.isFinite = true := by
  have hread : Binary64.read? (Text.trim raw) = some x := h
  exact Binary64.isFinite_read? hread

/-- What an effect and a condition make of one value. -/
inductive Paired (registry : Registry) (hint : String) : Value → Resolved → Amount → Prop
  | fallsBack {value : Value} (h : FallsBack registry value) :
      Paired registry hint value { amount := .zero } .zero
  | reference {raw : String} (hmarked : Encoding.isMarked raw = false)
      (hnumber : (Value.str raw).number? = none) (hname : Text.identifier raw ≠ "") :
      Paired registry hint (.str raw)
        { amount := .stored (Text.identifier raw), reference := some (Text.identifier raw) }
        (.stored (Text.identifier raw))
  | number {raw : String} {x : Binary64} (hmarked : Encoding.isMarked raw = false)
      (hnumber : (Value.str raw).number? = some x) :
      Paired registry hint (.str raw) (.ofLiteral (.ofNumber x) hint) (.constant (.real x))
  | literal {value : Value} (h : value.str? = none) :
      Paired registry hint value (.ofLiteral value hint) (.constant value)
  | reading {raw id : String} {var : GameVariable} {multiplier offset : Binary64}
      (hparse : Encoding.parse raw = .ok (.gameState id multiplier offset))
      (hvar : registry.get? id = some var) :
      Paired registry hint (.str raw) (.ofGameState id multiplier offset registry)
        (.state var.template multiplier offset offset.literal)

theorem paired {value : Value} (hrange : value.isRange = false) (effectId hint : String)
    (registry : Registry) :
    Paired registry hint value (Resolved.ofValue value effectId hint registry {})
      (Amount.ofOperand value registry) := by
  cases value with
  | bool | int | real => exact .literal rfl
  | str raw =>
    simp only [Resolved.ofValue, Amount.ofOperand]
    by_cases hmarked : Encoding.isMarked raw = true
    · rw [if_pos hmarked, if_pos hmarked]
      cases hparse : Encoding.parse raw with
      | error error =>
        dsimp only
        refine .fallsBack (.malformed hmarked (Classical.byContradiction fun hnamed => ?_))
        obtain ⟨encoding, hok⟩ := (Encoding.exists_parse_iff raw).mpr ⟨hmarked, hnamed⟩
        cases hparse.symm.trans hok
      | ok encoding =>
        cases encoding with
        | range low high =>
          have hnot : (Encoding.parse raw).toOption.any Encoding.isRange = false := hrange
          rw [hparse] at hnot
          cases hnot
        | gameState id multiplier offset =>
          cases hvar : registry.get? id with
          | none =>
            simp only [Resolved.ofGameState, hvar]
            exact .fallsBack (.unknown hparse hvar)
          | some var =>
            simp only [hvar]
            exact .reading hparse hvar
    · rw [if_neg hmarked, if_neg hmarked]
      rw [Bool.not_eq_true] at hmarked
      cases hnumber : (Value.str raw).number? with
      | some x => exact .number hmarked hnumber
      | none =>
        simp only [Resolved.ofReference]
        by_cases hname : Text.identifier raw = ""
        · rw [if_pos hname, if_pos hname]
          exact .fallsBack (.nameless hmarked hnumber hname)
        · rw [if_neg hname, if_neg hname]
          exact .reference hmarked hnumber hname

/-- In the meaning, the slot holds the value that it starts with. -/
def Slot.HoldsInitial {D : Type} (M : Meaning D) (s : Slot) : Prop :=
  M.value? (amounts.tokens s.initial.literal) = some (M.path (Slot.read s.name))

section Paired

variable {registry : Registry} {hint : String} {value : Value} {effect : Resolved} {operand : Amount}

theorem under_ofNumber {D : Type} {M : Meaning D} (hzero : M.signed .minus (M.number 0) = M.number 0)
    {x : Binary64} (hfinite : x.isFinite = true) {name : String}
    (h : Slot.HoldsInitial M { name, initial := .ofNumber x }) :
    M.path (Slot.read name) = x.literalExpr.under M := by
  obtain ⟨e, he, hcases⟩ := denotes_ofNumber hfinite
  have hvalue : M.path (Slot.read name) = e.under M :=
    Option.some.inj (h.symm.trans (he.value? M))
  rcases hcases with rfl | ⟨-, rfl, hliteral⟩
  · exact hvalue
  · rw [hvalue, hliteral]
    exact hzero.symm

theorem Paired.exists_stands (h : Paired registry hint value effect operand) (x : String → Expr) :
    ∃ e e', Amount.Stands x effect.amount e ∧ Amount.Stands x operand e' ∧
      ∀ (D : Type) (M : Meaning D), M.signed .minus (M.number 0) = M.number 0 →
        (∀ s ∈ effect.newSlots, s.HoldsInitial M) → e.under M = e'.under M := by
  cases h with
  | fallsBack => exact ⟨_, _, .zero, .zero, fun _ _ _ _ => rfl⟩
  | reference => exact ⟨_, _, .stored _, .stored _, fun _ _ _ _ => rfl⟩
  | @number raw y _ hnumber =>
    have hfinite := isFinite_number? hnumber
    have hliteral : amounts.Denotes signLevel (Value.real y).literal y.literalExpr :=
      Binary64.denotes_literal hfinite
    refine ⟨_, _, .stored hint, .constant hliteral, fun D M hzero hslots => ?_⟩
    exact under_ofNumber hzero hfinite (hslots _ List.mem_cons_self)
  | literal h =>
    obtain ⟨e, he⟩ := exists_denotes_literal h
    refine ⟨_, _, .stored hint, .constant he, fun D M _ hslots => ?_⟩
    exact Option.some.inj ((hslots _ List.mem_cons_self).symm.trans (he.value? M))
  | @reading raw id var multiplier offset hparse hvar =>
    obtain ⟨hm, ho⟩ := isFinite_of_parse hparse
    have hamount : (Resolved.ofGameState id multiplier offset registry).amount =
        .state var.template multiplier offset (Slot.read (offsetName var.label)) := by
      simp only [Resolved.ofGameState, hvar]
      split <;> rfl
    rw [hamount]
    refine ⟨_, _, .slotOffset _ _ _ hm, .literalOffset _ hm ho, fun D M hzero hslots => ?_⟩
    by_cases hoffset : offset.equals (.zero false) = true
    · simp only [shiftedExpr, hoffset, if_true]
    · have hslot := hslots { name := offsetName var.label, initial := .ofNumber offset } (by
        simp [Resolved.ofGameState, hvar, hoffset])
      simp only [shiftedExpr, hoffset, Bool.false_eq_true, if_false, Expr.under,
        under_ofNumber hzero ho hslot]

theorem Paired.zero_iff (h : Paired registry hint value effect operand) :
    (effect.amount = .zero ↔ FallsBack registry value) ∧
      (operand = .zero ↔ FallsBack registry value) := by
  have hreads : ¬ FallsBack registry value → effect.amount ≠ .zero ∧ operand ≠ .zero := by
    intro hno
    cases h with
    | fallsBack h => exact absurd h hno
    | reference | number | literal => exact ⟨nofun, nofun⟩
    | reading hparse hvar =>
      refine ⟨?_, nofun⟩
      simp only [Resolved.ofGameState, hvar]
      split <;> exact nofun
  have hfalls : FallsBack registry value → effect.amount = .zero ∧ operand = .zero := by
    intro hfalls
    cases h with
    | fallsBack => exact ⟨rfl, rfl⟩
    | literal h => cases hfalls <;> exact nomatch h
    | reference hmarked hnumber hname =>
      cases hfalls with
      | malformed hmarked' => exact absurd hmarked' (Bool.eq_false_iff.mp hmarked)
      | unknown hparse =>
        exact absurd (Encoding.isMarked_of_parse hparse) (Bool.eq_false_iff.mp hmarked)
      | nameless _ _ h => exact absurd h hname
    | number hmarked hnumber =>
      cases hfalls with
      | malformed hmarked' => exact absurd hmarked' (Bool.eq_false_iff.mp hmarked)
      | unknown hparse =>
        exact absurd (Encoding.isMarked_of_parse hparse) (Bool.eq_false_iff.mp hmarked)
      | nameless _ hnone => exact nomatch hnumber.symm.trans hnone
    | reading hparse hvar =>
      cases hfalls with
      | malformed _ h => exact absurd h ((Encoding.exists_parse_iff _).mp ⟨_, hparse⟩).2
      | unknown hparse' hnone =>
        obtain ⟨rfl, -, -⟩ := Encoding.gameState.inj (Except.ok.inj (hparse.symm.trans hparse'))
        exact nomatch hvar.symm.trans hnone
      | nameless hmarked =>
        exact absurd (Encoding.isMarked_of_parse hparse) (Bool.eq_false_iff.mp hmarked)
  by_cases hvalue : FallsBack registry value
  · simp [hvalue, hfalls hvalue]
  · simp [hvalue, hreads hvalue]

/-- A text that is no encoding names a variable for an effect exactly if a condition reads
its slot. -/
theorem Paired.reference_iff {raw : String} (h : Paired registry hint (.str raw) effect operand)
    (hmarked : Encoding.isMarked raw = false) (name : String) :
    effect.reference = some name ↔ operand.expr = Slot.read name := by
  generalize hvalue : Value.str raw = value at h
  cases h with
  | fallsBack =>
    refine iff_of_false nofun fun hread => ?_
    have hfirst : "0".toList.head? = some 'c' := (congrArg (·.toList.head?) hread).trans (by
      rw [toList_read]
      rfl)
    exact absurd hfirst (by decide)
  | reference =>
    constructor
    · intro hname
      rw [← Option.some.inj hname]
      rfl
    · intro hread
      exact congrArg some (read_injective hread)
  | @number _ x _ hnumber =>
    exact iff_of_false nofun (Fragment.literal_ne_read (isFinite_number? hnumber) name)
  | literal h =>
    subst hvalue
    exact nomatch h
  | reading hparse =>
    obtain rfl := Value.str.inj hvalue
    exact absurd (Encoding.isMarked_of_parse hparse) (Bool.eq_false_iff.mp hmarked)

theorem Paired.mem_reads {name : String} (h : Paired registry hint value effect operand)
    (hname : effect.reference = some name) {effects : List Effect} {e : Effect} (he : e ∈ effects)
    {key : String} (hkey : (key, value) ∈ e.params.entries)
    (hstructural : Capture.isStructural key = false) :
    NameSet.contains (Capture.reads effects) name = true := by
  cases h with
  | fallsBack | number | literal => exact nomatch hname
  | reading _ hvar =>
    simp only [Resolved.ofGameState, hvar] at hname
    split at hname <;> exact nomatch hname
  | @reference raw _ hnumber hne =>
    rw [Capture.reads, NameSet.contains_ofNames, List.mem_flatMap]
    refine ⟨e, he, List.mem_filterMap.mpr ⟨_, hkey, ?_⟩⟩
    rw [← hname]
    simp [Capture.readName?, hstructural, hnumber, hne]

/-- Every template is an expression, and every label makes a name. -/
def Registry.Legible (registry : Registry) : Prop :=
  ∀ id var, registry.get? id = some var →
    (∃ e, amounts.Denotes 1 var.template e) ∧ ∀ c ∈ (offsetName var.label).toList, isNameChar c = true

theorem legible_builtin : Registry.builtin.Legible := by
  intro id var hvar
  refine ⟨?_, isNameChar_offsetName hvar⟩
  obtain ⟨r, hr, htemplate⟩ := gauge_of_builtin hvar
  rw [htemplate]
  exact ⟨_, (Gauge.denotes (isPath_gauges r hr)).mono (by decide)⟩

theorem Paired.legible (h : Paired registry hint value effect operand) (hregistry : registry.Legible)
    (hhint : ∀ c ∈ hint.toList, isNameChar c = true) {x : String → Expr}
    (hx : ∀ text e, amounts.Denotes 1 text e → amounts.Denotes 1 text (x text)) :
    effect.amount.Legible x ∧ operand.Legible x := by
  cases h with
  | fallsBack => exact ⟨trivial, trivial⟩
  | @reference raw => exact ⟨isNameChar_identifier raw, isNameChar_identifier raw⟩
  | number | literal => exact ⟨hhint, trivial⟩
  | @reading raw id var multiplier offset hparse hvar =>
    obtain ⟨⟨e, he⟩, hlabel⟩ := hregistry id var hvar
    have htemplate := hx var.template e he
    refine ⟨?_, htemplate, fun hoperand => ?_⟩
    · simp only [Resolved.ofGameState, hvar]
      split <;> exact ⟨htemplate, fun _ => isPath_read hlabel⟩
    · rw [Fragment.offset_literal (isFinite_of_parse hparse).2] at hoperand
      exact nomatch hoperand

end Paired

/-- For every value that is not drawn anew at each reading, an effect and a condition read the same,
in the fragments that make up their texts and, if the texts can be read as they are, as whole texts.
Both read nothing from the same values, and a text that is no encoding is a reference for both or
for none. -/
theorem effects_and_conditions_read_alike {value : Value} (hrange : value.isRange = false)
    (registry : Registry) (hint effectId : String) :
    let effect := Resolved.ofValue value effectId hint registry {}
    let operand := Amount.ofOperand value registry
    String.join (effect.amount.fragments.map Fragment.text) = effect.amount.expr ∧
    String.join (operand.fragments.map Fragment.text) = operand.expr ∧
    (∀ (D : Type) (M : Meaning D), M.signed .minus (M.number 0) = M.number 0 →
      (∀ s ∈ effect.newSlots, s.HoldsInitial M) →
        (∃ d, effect.amount.value? M = some d ∧ operand.value? M = some d) ∧
        (registry.Legible → (∀ c ∈ hint.toList, isNameChar c = true) →
          ∃ d, M.value? (amounts.tokens effect.amount.expr) = some d ∧
            M.value? (amounts.tokens operand.expr) = some d)) ∧
    (effect.amount = .zero ↔ FallsBack registry value) ∧
    (operand = .zero ↔ FallsBack registry value) ∧
    ∀ raw, value = .str raw → Encoding.isMarked raw = false → ∀ name,
      (effect.reference = some name ↔ operand.expr = Slot.read name) ∧
      (effect.reference = some name →
        ∀ effects, ∀ e ∈ effects, ∀ key, (key, value) ∈ e.params.entries →
          Capture.isStructural key = false →
            NameSet.contains (Capture.reads effects) name = true) := by
  intro effect operand
  have hpaired : Paired registry hint value effect operand := paired hrange effectId hint registry
  refine ⟨effect.amount.join_fragments, operand.join_fragments,
    fun D M hzero hslots => ⟨?_, fun hregistry hhint => ?_⟩, hpaired.zero_iff.1,
    hpaired.zero_iff.2, fun raw hraw hmarked name => ⟨?_, fun hname effects e he key hkey => ?_⟩⟩
  · obtain ⟨e, e', heffect, hoperand, hsame⟩ := hpaired.exists_stands .path
    refine ⟨e.under M, heffect.value? M, ?_⟩
    rw [hsame D M hzero hslots]
    exact hoperand.value? M
  · have hexists : ∀ text, ∃ x, ∀ e, amounts.Denotes 1 text e → amounts.Denotes 1 text x := by
      intro text
      by_cases h : ∃ x, amounts.Denotes 1 text x
      · exact h.imp fun x hx _ _ => hx
      · exact ⟨.number 0, fun e he => absurd ⟨e, he⟩ h⟩
    choose x hx using hexists
    obtain ⟨e, e', heffect, hoperand, hsame⟩ := hpaired.exists_stands x
    obtain ⟨hlegible, hlegible'⟩ := hpaired.legible hregistry hhint hx
    refine ⟨e.under M, (heffect.denotes hlegible).value? M, ?_⟩
    rw [hsame D M hzero hslots]
    exact (hoperand.denotes hlegible').value? M
  · subst hraw
    exact hpaired.reference_iff hmarked name
  · exact hpaired.mem_reads hname he hkey

/-- A game in its third ante, on a card that keeps five. -/
def thirdAnte : Game := fun name =>
  if name = "G.GAME.round_resets.ante" then .number 3
  else if name = Slot.read "ante" then .number 5
  else .absent

theorem shifted_ante_reads_alike :
    let value : Value := .str "GAMEVAR:ante|2|5"
    let M := Meaning.exact (fun _ _ => none) thirdAnte
    ∃ d, M.value? (amounts.tokens (Resolved.ofValue value "e" "chips" .builtin {}).amount.expr)
      = some d ∧
      M.value? (amounts.tokens (Amount.ofOperand value .builtin).expr) = some d := by
  have hslots : ∀ s ∈ (Resolved.ofValue (.str "GAMEVAR:ante|2|5") "e" "chips" .builtin {}).newSlots,
      s.HoldsInitial (Meaning.exact (fun _ _ => none) thirdAnte) := by
    unfold Slot.HoldsInitial
    decide +kernel
  exact ((effects_and_conditions_read_alike (by decide +kernel) .builtin "chips" "e").2.2.1 _
    (Meaning.exact (fun _ _ => none) thirdAnte) (by decide +kernel) hslots).2 legible_builtin
      (List.all_eq_true.mp (by decide))

end JokerRules
