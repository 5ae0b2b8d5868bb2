import JokerRules.Proofs.Plans
import JokerRules.Proofs.Series

/-! What the plans of effects ask for: an amount under some stem, and the slot of a variable that is
written. Only the stem of a bonus that a card keeps is authored as a whole. -/

namespace JokerRules

open Text

/-- The names of the stem are no names of other such stems, of bounds or of odds. -/
def Calm (stem : String) : Prop :=
  Names.Unnumbered stem ∧ ¬Names.EndsInBound stem ∧ stem ≠ "odds"

instance (stem : String) : Decidable (Calm stem) :=
  inferInstanceAs (Decidable (_ ∧ _ ∧ _))

theorem calm_change (name : String) : Calm (name ++ "_change") := by
  obtain ⟨cs, hcs⟩ : ∃ cs, (name ++ "_change").toList.reverse = 'e' :: cs :=
    ⟨"_chang".toList.reverse ++ name.toList.reverse, by simp⟩
  refine ⟨?_, ?_, ?_⟩
  · simp [Names.Unnumbered, Names.trunk]
  · rintro (h | h) <;> rw [← List.reverse_prefix, hcs] at h <;> simp at h
  · intro h
    rw [h] at hcs
    exact absurd hcs (by simp)

theorem ScoreField.calm_stem {kind : EffectKind} {f : ScoreField} (h : ofKind? kind = some f) :
    Calm f.stem := by
  cases kind <;> cases h <;> decide

namespace Quantity

/-- The quantities that effects move. -/
def holdable : List Quantity :=
  EffectKind.all.filterMap ofKind?

theorem mem_holdable {kind : EffectKind} {q : Quantity} (h : ofKind? kind = some q) :
    q ∈ holdable := by
  refine List.mem_filterMap.mpr ⟨kind, ?_, h⟩
  cases kind with
  | unknown => exact nomatch h
  | _ => decide

theorem calm_stem {kind : EffectKind} {q : Quantity} (h : ofKind? kind = some q) :
    Calm q.stem := by
  have hall : ∀ q ∈ holdable, Calm q.stem := by decide
  exact hall q (mem_holdable h)

end Quantity

namespace Effect

/-- The slot that the effect declares for the variable that it writes. -/
def targetSlots (e : Effect) : List Slot :=
  e.target?.toList.map fun name => { name, initial := .int 0 }

theorem targetSlots_eq_nil {e : Effect} (h : e.kind ≠ .modifyInternalVariable) :
    e.targetSlots = [] := by
  simp [targetSlots, target?, EffectKind.writesVariable, h]

/-- The stems of the amounts that an effect can read. -/
def HasStem (e : Effect) (stem : String) : Prop :=
  Calm stem ∨ e.kind = .permaBonus ∧ startsWith "perma_" stem = true

end Effect

/-- The plan reads its amount under a stem with a property, and every output of it declares the
given slots. -/
structure Plan.Asks (P : String → Prop) (slots : List Slot) (plan : Plan Output) : Prop where
  stem : plan.StemIs P
  slots : plan.Makes fun o => o.newSlots = slots

namespace Effect

theorem newSlots_levelUp (e : Effect) (v : String) :
    Gives (e.levelUp v) fun o => o.newSlots = [] := by
  intro names
  simp only [levelUp]
  split
  · rfl
  · split <;> rfl

theorem newSlots_createConsumable (e : Effect) :
    Gives e.createConsumable fun o => o.newSlots = [] := by
  intro names
  simp only [createConsumable]
  cases familyOf? (e.params.textOr "consumable_type" "random") <;> rfl

theorem newSlots_createTag (e : Effect) : Gives e.createTag fun o => o.newSlots = [] := by
  intro names
  simp only [createTag]
  split <;> rfl

/-- An effect declares the variable that it writes and nothing else besides its amount. -/
theorem asks_plan {e : Effect} {t : Trigger} {plan : Plan Output} (h : e.plan? t = some plan) :
    plan.Asks e.HasStem e.targetSlots := by
  have hnil : e.kind ≠ .modifyInternalVariable → plan.Asks e.HasStem [] →
      plan.Asks e.HasStem e.targetSlots := fun hkind hasks => targetSlots_eq_nil hkind ▸ hasks
  cases planned_of_plan h with
  | score kind =>
    exact hnil (fun hkind => by rw [hkind] at kind; cases kind)
      ⟨.inl (ScoreField.calm_stem kind), fun _ _ => rfl⟩
  | changeQuantity kind _ =>
    exact hnil (fun hkind => by rw [hkind] at kind; cases kind)
      ⟨.inl (Quantity.calm_stem kind), fun _ _ => rfl⟩
  | drawConversion kind | convertCards kind _ =>
    exact hnil (fun hkind => by rw [hkind] at kind; cases kind) ⟨trivial, fun _ => rfl⟩
  | modifyVariable kind target =>
    refine ⟨.inl (calm_change _), fun _ _ => ?_⟩
    rw [targetSlots, target]
    rfl
  | permaBonus kind bonus =>
    exact hnil (by simp [kind]) ⟨.inr ⟨kind, bonus⟩, fun _ _ => rfl⟩
  | levelUp kind => exact hnil (by simp [kind]) ⟨.inl (by decide), e.newSlots_levelUp⟩
  | createConsumable kind => exact hnil (by simp [kind]) ⟨trivial, e.newSlots_createConsumable⟩
  | createTag kind => exact hnil (by simp [kind]) ⟨trivial, e.newSlots_createTag⟩
  | retrigger kind _ | setDollars kind | setSellValue kind | drawCards kind | editBlindSize kind
  | setAnte kind | modifyProbability kind =>
    exact hnil (by simp [kind]) ⟨.inl (by decide), fun _ _ => rfl⟩
  | showMessage kind | balance kind | swapChipsMult kind | savedFromDeath kind | removeCard kind
  | destroyCard kind | createJoker kind | destroyJoker kind | copyJoker kind | destroySelf kind
  | destroyConsumable kind | copyConsumable kind | addCardToDeck kind | copyTriggeredCard kind
  | editTriggeredCard kind | disableBossBlind kind =>
    exact hnil (by simp [kind]) ⟨trivial, fun _ => rfl⟩

theorem calm_heldPlan {e : Effect} {owner : String} {plan : Plan PassiveEffect}
    (h : e.heldPlan? owner = some plan) : plan.StemIs Calm := by
  rcases heldPlan_cases h with ⟨q, hq, rfl⟩ | ⟨-, rfl⟩ | ⟨-, -, r, rfl, -⟩
  · exact Quantity.calm_stem hq
  · exact (by decide : Calm "discount")
  · trivial

end Effect

end JokerRules
