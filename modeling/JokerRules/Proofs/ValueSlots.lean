import JokerRules.Proofs.AskedSlots
import JokerRules.Proofs.EncodedFields
import JokerRules.Proofs.Storage

/-! The slots that a value asks for. A literal asks for one under the hinted name, a reading of the
game's state for its offset, and every other value for none. -/

namespace JokerRules

open Text

/-- What a slot holds for a literal. -/
def Value.content : Value → Value
  | .str s => (Binary64.read? (trim s)).elim (.str s) .ofNumber
  | v => v

theorem read?_eq_none {c : Char} (hc : c = 'G' ∨ c = 'R') (cs : List Char) :
    Binary64.read? (String.ofList (c :: cs)) = none := by
  rcases hc with rfl | rfl <;>
    simp [Binary64.read?, Binary64.takeSign, Binary64.takeFraction]

theorem startsWith_cons {c : Char} {cs : List Char} {s : String}
    (h : startsWith (String.ofList (c :: cs)) s = true) : ∃ rest, s.toList = c :: rest := by
  obtain ⟨rest, hrest⟩ := List.isPrefixOf_iff_prefix.mp h
  exact ⟨cs ++ rest, by simpa using hrest.symm⟩

/-- A text with a mark is no number. -/
theorem read?_of_isMarked {raw : String} (h : Encoding.isMarked raw = true) :
    Binary64.read? (trim raw) = none := by
  obtain ⟨c, cs, hc, hcs⟩ : ∃ c cs, (c = 'G' ∨ c = 'R') ∧ trimStart raw.toList = c :: cs := by
    simp only [Encoding.isMarked, Bool.or_eq_true] at h
    rcases h with h | h
    · have h : startsWith "GAMEVAR:" (String.ofList (trimStart raw.toList)) = true := h
      obtain ⟨rest, hrest⟩ := startsWith_cons h
      exact ⟨'G', rest, .inl rfl, by simpa using hrest⟩
    · have h : startsWith "RANGE:" (String.ofList (trimStart raw.toList)) = true := h
      obtain ⟨rest, hrest⟩ := startsWith_cons h
      exact ⟨'R', rest, .inr rfl, by simpa using hrest⟩
  have hblank : isBlank c = false := by rcases hc with rfl | rfl <;> decide
  rw [trim, hcs, trimEnd_cons hblank]
  exact read?_eq_none hc _

namespace Resolved

theorem ofValue_of_isLiteral {v : Value} (h : v.isLiteral = true) (id hint : String)
    (registry : Registry) (captures : Captures) :
    ofValue v id hint registry captures = ofLiteral v.content hint := by
  cases v with
  | str s =>
    have hsome : (Binary64.read? (trim s)).isSome = true := h
    obtain ⟨x, hx⟩ := Option.isSome_iff_exists.mp hsome
    have hmarked : Encoding.isMarked s = false := by
      rw [Bool.eq_false_iff]
      intro hmarked
      rw [read?_of_isMarked hmarked] at hx
      exact nomatch hx
    simp [ofValue, hmarked, Value.number?, Value.content, hx]
  | _ => rfl

theorem newSlots_ofGameState (id : String) (multiplier offset : Binary64) (registry : Registry) :
    (ofGameState id multiplier offset registry).newSlots =
      (ofGameState id multiplier offset registry).offsetSlot.toList := by
  unfold ofGameState
  split
  · rfl
  · split <;> rfl

theorem newSlots_ofReference (raw : String) (captures : Captures) :
    (ofReference raw captures).newSlots = [] := by
  simp only [ofReference]
  split <;> rfl

/-- What a value can resolve to. -/
theorem ofValue_cases (v : Value) (id hint : String) (registry : Registry) (captures : Captures) :
    (v.isLiteral = true ∧ ofValue v id hint registry captures = ofLiteral v.content hint) ∨
      (∃ key multiplier offset,
        ofValue v id hint registry captures = ofGameState key multiplier offset registry) ∨
      (∃ min max, ofValue v id hint registry captures = ofRange min max id hint) ∨
      (∃ raw, ofValue v id hint registry captures = ofReference raw captures) ∨
      ofValue v id hint registry captures = { amount := .zero } := by
  by_cases hliteral : v.isLiteral = true
  · exact .inl ⟨hliteral, ofValue_of_isLiteral hliteral id hint registry captures⟩
  refine .inr ?_
  cases v with
  | bool b => exact absurd rfl hliteral
  | int n => exact absurd rfl hliteral
  | real x => exact absurd rfl hliteral
  | str raw =>
    have hnumber : (Value.str raw).number? = none := by
      simpa [Value.isLiteral, Value.number?] using hliteral
    by_cases hmarked : Encoding.isMarked raw = true
    · simp only [ofValue, hmarked, if_true]
      cases Encoding.parse raw with
      | error e => exact .inr (.inr (.inr rfl))
      | ok encoding =>
        cases encoding with
        | gameState key multiplier offset => exact .inl ⟨key, multiplier, offset, rfl⟩
        | range min max => exact .inr (.inl ⟨min, max, rfl⟩)
    · simp only [ofValue, hmarked, hnumber, Bool.false_eq_true, if_false]
      exact .inr (.inr (.inl ⟨raw, rfl⟩))

section

variable {v : Value} {id hint : String} {registry : Registry} {captures : Captures} {slot : Slot}

/-- The slots of an amount hold a literal, the bounds of a draw or the offset of a reading. -/
theorem mem_newSlots_ofValue (h : slot ∈ (ofValue v id hint registry captures).newSlots) :
    (v.isLiteral = true ∧ slot = { name := hint, initial := v.content }) ∨
      (slot.name = hint ++ "_min" ∨ slot.name = hint ++ "_max") ∨
      (ofValue v id hint registry captures).offsetSlot = some slot := by
  rcases ofValue_cases v id hint registry captures with ⟨hliteral, heq⟩ | ⟨key, m, offset, heq⟩ |
    ⟨min, max, heq⟩ | ⟨raw, heq⟩ | heq <;> rw [heq] at h
  · exact .inl ⟨hliteral, List.mem_singleton.mp h⟩
  · rw [newSlots_ofGameState] at h
    exact .inr (.inr (heq ▸ Option.mem_toList.mp h))
  · rcases List.mem_cons.mp h with rfl | h
    · exact .inr (.inl (.inl rfl))
    · rw [List.mem_singleton.mp h]
      exact .inr (.inl (.inr rfl))
  · rw [newSlots_ofReference] at h
    exact nomatch h
  · exact nomatch h

/-- Only readings of registered state have an offset, and the slot for it is named after
the label. -/
theorem exists_of_offsetSlot (h : (ofValue v id hint registry captures).offsetSlot = some slot) :
    ∃ key var multiplier offset, registry.get? key = some var ∧
      ofValue v id hint registry captures = ofGameState key multiplier offset registry ∧
      slot = { name := offsetName var.label, initial := .ofNumber offset } := by
  rcases ofValue_cases v id hint registry captures with ⟨hliteral, heq⟩ |
    ⟨key, multiplier, offset, heq⟩ | ⟨min, max, heq⟩ | ⟨raw, heq⟩ | heq <;> rw [heq] at h
  · cases h
  · unfold ofGameState at h
    split at h
    · cases h
    · next var hvar =>
      simp only at h
      split at h
      · cases h
      · exact ⟨key, var, multiplier, offset, hvar, heq, (Option.some.inj h).symm⟩
  · cases h
  · simp only [ofReference] at h
    split at h <;> cases h
  · cases h

end

end Resolved

end JokerRules
