import JokerRules.Proofs.Captures
import JokerRules.Proofs.Ink
import Mathlib.Data.List.Sort

/-! Effects that mean nothing where they stand. They ask for nothing and give no code of their own.
What can stay of them is a capture of a variable that only they name, and the test that keeps copies
of the item from changing it. -/

namespace JokerRules

open Text Step

/-- The output has an entry or a statement for the returned table. -/
def Output.Shows (o : Output) : Prop :=
  (TableLevel.ofOutput o).isEmpty = false

theorem Output.shows_of_fields {o : Output} {entry : String} {entries : List String}
    (h : o.body = .fields (entry :: entries)) : o.Shows := by
  simp [Output.Shows, TableLevel.ofOutput, h, TableLevel.isEmpty]

theorem Output.shows_of_closure {o : Output} {code : String} (h : o.body = .closure code) :
    o.Shows := by
  simp [Output.Shows, TableLevel.ofOutput, h, TableLevel.isEmpty]

theorem Output.shows_of_message {o : Output} {message : String} (hbody : o.body = .messageOnly)
    (h : o.message = some message) : o.Shows := by
  simp [Output.Shows, TableLevel.ofOutput, hbody, TableLevel.isEmpty, Output.statusEntries, h]

/-- The amount, if the plan reads one, falls back to a value that is no reference. -/
def Plan.FallsBackToLiteral {α : Type} : Plan α → Prop
  | .plain _ => True
  | .measured _ fallback _ => fallback.isLiteral = true

namespace Effect

theorem shows_levelUp (e : Effect) (v : String) : Gives (e.levelUp v) Output.Shows := by
  intro names
  simp only [levelUp]
  split
  · exact Output.shows_of_fields rfl
  · split <;> exact Output.shows_of_closure rfl

theorem shows_createConsumable (e : Effect) : Gives e.createConsumable Output.Shows := by
  intro names
  simp only [createConsumable]
  cases familyOf? (e.params.textOr "consumable_type" "random") <;>
    exact Output.shows_of_message rfl rfl

theorem shows_createTag (e : Effect) : Gives e.createTag Output.Shows := by
  intro names
  simp only [createTag]
  split <;> exact Output.shows_of_closure rfl

theorem shows_plan {e : Effect} {t : Trigger} {plan : Plan Output} (h : e.plan? t = some plan) :
    plan.Makes Output.Shows := by
  cases planned_of_plan h with
  | levelUp => exact e.shows_levelUp
  | createConsumable => exact e.shows_createConsumable
  | createTag => exact e.shows_createTag
  | score | retrigger => exact fun _ _ => Output.shows_of_fields rfl
  | balance | swapChipsMult | savedFromDeath | removeCard =>
    exact fun _ => Output.shows_of_fields rfl
  | modifyVariable => exact fun _ _ => Output.shows_of_message rfl rfl
  | showMessage | createJoker | destroyJoker | copyJoker | destroyConsumable | copyConsumable =>
    exact fun _ => Output.shows_of_message rfl rfl
  | setDollars | setSellValue | drawCards | permaBonus | editBlindSize | setAnte | modifyProbability
  | changeQuantity =>
    exact fun _ _ => Output.shows_of_closure rfl
  | destroyCard | destroySelf | addCardToDeck | copyTriggeredCard | editTriggeredCard
  | drawConversion | convertCards | disableBossBlind =>
    exact fun _ => Output.shows_of_closure rfl

theorem fallsBackToLiteral_plan {e : Effect} {t : Trigger} {plan : Plan Output}
    (h : e.plan? t = some plan) : plan.FallsBackToLiteral := by
  cases planned_of_plan h with
  | score kind => cases hkind : e.kind <;> rw [hkind] at kind <;> cases kind <;> rfl
  | retrigger | setDollars | setSellValue | modifyVariable | levelUp | drawCards | permaBonus
  | editBlindSize | setAnte | modifyProbability | changeQuantity =>
    rfl
  | showMessage | balance | swapChipsMult | savedFromDeath | removeCard | destroyCard | createJoker
  | destroyJoker | copyJoker | destroySelf | createConsumable | destroyConsumable | copyConsumable
  | createTag | addCardToDeck | copyTriggeredCard | editTriggeredCard | drawConversion | convertCards
  | disableBossBlind =>
    trivial

theorem shows_deliver (e : Effect) (slots : List Slot) {o : Output} (h : o.Shows) :
    (e.deliver slots o).Shows := by
  unfold deliver
  cases e.ownMessage? with
  | none => exact h
  | some text =>
    obtain ⟨body, message, colour, hoisted, newSlots⟩ := o
    cases body <;> simp [Output.Shows, Output.announce, TableLevel.ofOutput, TableLevel.isEmpty,
      Output.statusEntries]

end Effect

/-- The effects that mean something under the trigger. -/
def kept (t : Trigger) (effects : List Effect) : List Effect :=
  effects.filter fun e => (e.plan? t).isSome

/-- The dropped effects add nothing to the captured variables. -/
def CapturesAlike (t : Trigger) (effects : List Effect) : Prop :=
  Capture.conflicts effects = Capture.conflicts (kept t effects)

instance (t : Trigger) (effects : List Effect) : Decidable (CapturesAlike t effects) :=
  inferInstanceAs (Decidable (_ = _))

section Bundle

variable {t : Trigger} {effects : List Effect}

theorem mem_kept {e : Effect} : e ∈ kept t effects ↔ e ∈ effects ∧ (e.plan? t).isSome = true :=
  List.mem_filter

theorem mem_kept_of_target {e : Effect} {name : String} (he : e ∈ effects)
    (h : e.target? = some name) : e ∈ kept t effects := by
  obtain ⟨plan, hplan⟩ := exists_plan_of_target h t
  exact mem_kept.mpr ⟨he, by rw [hplan]; rfl⟩

/-- A variable that a kept effect names is captured alike with and without the dropped ones. -/
theorem mem_conflicts_kept_iff {name : String} :
    name ∈ Capture.conflicts (kept t effects) ↔ name ∈ Capture.conflicts effects ∧
      ∃ e ∈ kept t effects, ∃ entry ∈ e.params.entries, Capture.readName? entry = some name := by
  rw [Capture.mem_conflicts, Capture.mem_conflicts]
  constructor
  · rintro ⟨⟨e, he, hread⟩, e', he', htarget⟩
    exact ⟨⟨⟨e, (mem_kept.mp he).1, hread⟩, e', (mem_kept.mp he').1, htarget⟩, e, he, hread⟩
  · rintro ⟨⟨-, e', he', htarget⟩, hread⟩
    exact ⟨hread, e', mem_kept_of_target he' htarget, htarget⟩

theorem get?_captures_kept {e : Effect} (he : e ∈ kept t effects) {raw : String}
    (hvalue : e.params.get? "value" = some (.str raw)) (hnumber : (Value.str raw).number? = none)
    (hname : identifier raw ≠ "") :
    (Capture.captures effects).get? (identifier raw) =
      (Capture.captures (kept t effects)).get? (identifier raw) := by
  have hread : ∃ e ∈ kept t effects, ∃ entry ∈ e.params.entries,
      Capture.readName? entry = some (identifier raw) :=
    ⟨e, he, _, Keyed.mem_entries_of_get? hvalue, Capture.readName?_value hnumber hname⟩
  rw [Capture.get?_captures, Capture.get?_captures]
  by_cases hconflict : identifier raw ∈ Capture.conflicts effects
  · rw [if_pos hconflict, if_pos (mem_conflicts_kept_iff.mpr ⟨hconflict, hread⟩)]
  · rw [if_neg hconflict, if_neg fun h => hconflict (mem_conflicts_kept_iff.mp h).1]

theorem Resolved.ofValue_congr {value : Value} {captures captures' : Captures}
    (h : ∀ raw, value = .str raw → value.number? = none → identifier raw ≠ "" →
      captures.get? (identifier raw) = captures'.get? (identifier raw)) (id hint : String)
    (registry : Registry) :
    ofValue value id hint registry captures = ofValue value id hint registry captures' := by
  cases value with
  | str raw =>
    have href : (Value.str raw).number? = none →
        ofReference raw captures = ofReference raw captures' := by
      intro hnumber
      unfold ofReference
      by_cases hname : identifier raw = ""
      · simp only [hname, if_true]
      · simp only [hname, if_false, h raw rfl hnumber hname]
    simp only [ofValue]
    cases hnumber : (Value.str raw).number? with
    | none => simp only [href hnumber]
    | some x => rfl
  | _ => rfl

/-- A kept effect compiles alike with and without the dropped ones. -/
theorem compile_kept {e : Effect} (he : e ∈ kept t effects) (registry : Registry) :
    e.compile t registry (Capture.captures effects) =
      e.compile t registry (Capture.captures (kept t effects)) := by
  obtain ⟨plan, hplan⟩ := Option.isSome_iff_exists.mp (mem_kept.mp he).2
  have hcarry : ∀ d : Draft, d.carryOut e plan registry (Capture.captures effects) =
      d.carryOut e plan registry (Capture.captures (kept t effects)) := by
    intro d
    cases plan with
    | plain make => rfl
    | measured stem fallback make =>
      have hliteral : fallback.isLiteral = true := Effect.fallsBackToLiteral_plan hplan
      have hvalue : ∀ raw, (e.params.get? "value").getD fallback = .str raw →
          ((e.params.get? "value").getD fallback).number? = none →
          identifier raw ≠ "" → (Capture.captures effects).get? (identifier raw) =
            (Capture.captures (kept t effects)).get? (identifier raw) := by
        intro raw hraw hnumber hname
        rw [hraw] at hnumber
        cases hget : e.params.get? "value" with
        | none =>
          rw [hget, Option.getD_none] at hraw
          rw [hraw, Value.isLiteral] at hliteral
          rw [Value.number?] at hnumber
          rw [hnumber] at hliteral
          cases hliteral
        | some value =>
          rw [hget, Option.getD_some] at hraw
          exact get?_captures_kept he (hraw ▸ hget) hnumber hname
      have hresolve : d.resolve e stem fallback registry (Capture.captures effects) =
          d.resolve e stem fallback registry (Capture.captures (kept t effects)) := by
        simp only [Draft.resolve, Resolved.ofValue_congr hvalue]
      simp only [Draft.carryOut, hresolve]
  refine StateT.ext fun d => ?_
  rw [Effect.compile_run, Effect.compile_run]
  cases hwrites : e.kind.writesVariable with
  | true => simp only [hplan, if_true]
  | false => simp only [hplan, Bool.false_eq_true, if_false, hcarry]

theorem compile_dropped {e : Effect} (h : (e.plan? t).isSome = false) (registry : Registry)
    (captures : Captures) (d : Draft) : (e.compile t registry captures).run d = (none, d) := by
  have hplan : e.plan? t = none := by simpa using h
  simp only [Effect.compile_run, hplan]

theorem outputsOf_kept (registry : Registry) {captures captures' : Captures}
    (h : ∀ e ∈ kept t effects, e.compile t registry captures = e.compile t registry captures') :
    Bundle.outputsOf t registry captures effects =
      Bundle.outputsOf t registry captures' (kept t effects) := by
  induction effects with
  | nil => rfl
  | cons e effects ih =>
    cases hplan : (e.plan? t).isSome with
    | false =>
      have hkept : kept t (e :: effects) = kept t effects := by simp [kept, hplan]
      rw [hkept] at h ⊢
      rw [← ih h]
      funext d
      have hdropped := compile_dropped hplan registry captures d
      simp only [StateT.run] at hdropped
      simp only [Bundle.outputsOf, bind, StateT.bind, hdropped]
    | true =>
      have hkept : kept t (e :: effects) = e :: kept t effects := by simp [kept, hplan]
      rw [hkept] at h ⊢
      obtain ⟨he, hrest⟩ := List.forall_mem_cons.mp h
      rw [Bundle.outputsOf, Bundle.outputsOf, he, ih hrest]

theorem pairwise_conflicts (effects : List Effect) :
    (Capture.conflicts effects).Pairwise (· < ·) :=
  (List.pairwise_map.mpr (Capture.reads effects).sorted).filter _

theorem conflicts_kept_sublist (t : Trigger) (effects : List Effect) :
    (Capture.conflicts (kept t effects)).Sublist (Capture.conflicts effects) := by
  have hsubset : Capture.conflicts (kept t effects) ⊆ Capture.conflicts effects :=
    fun _ h => (mem_conflicts_kept_iff.mp h).1
  exact List.sublist_of_subperm_of_pairwise
    (List.subperm_of_subset (pairwise_conflicts _).nodup hsubset) (pairwise_conflicts _)
    (pairwise_conflicts _)

theorem outgrows_of_sublist {f : String → String} (hf : ∀ name, 0 < ink (f name))
    {names names' : List String} (h : names'.Sublist names) :
    Outgrows (names = names') (names.map f) (names'.map f) := by
  induction h with
  | slnil => exact (Outgrows.refl []).congr (by simp)
  | cons name h ih =>
    have hle := ih.le
    have hname := hf name
    refine ⟨?_, fun heq => ?_, fun hink => ?_⟩
    · rw [List.map_cons, inkAll_cons]
      omega
    · rw [heq]
    · rw [List.map_cons, inkAll_cons] at hink
      omega
  | cons_cons name h ih =>
    refine ((Outgrows.refl [f name]).append ih).congr ?_
    simp

theorem outgrows_statements (t : Trigger) (effects : List Effect) :
    Outgrows (CapturesAlike t effects) (Capture.statements effects)
      (Capture.statements (kept t effects)) := by
  refine outgrows_of_sublist (fun name => ?_) (conflicts_kept_sublist t effects)
  have hlocal : 0 < ink "local " := by decide
  rw [ink_append, ink_append, ink_append]
  omega

/-- Without code nothing is written, so nothing is captured. -/
theorem conflicts_eq_nil (h : hasCode t effects = false) : Capture.conflicts effects = [] := by
  refine List.eq_nil_iff_forall_not_mem.mpr fun name hname => ?_
  obtain ⟨-, e, he, htarget⟩ := Capture.mem_conflicts.mp hname
  have hkept := (mem_kept.mp (mem_kept_of_target (t := t) he htarget)).2
  rw [hasCode, List.any_eq_false] at h
  exact h e he hkept

theorem capturesAlike_of_hasCode (h : hasCode t effects = false) : CapturesAlike t effects := by
  have hkept : Capture.conflicts (kept t effects) ⊆ [] :=
    conflicts_eq_nil h ▸ (conflicts_kept_sublist t effects).subset
  rw [CapturesAlike, conflicts_eq_nil h, List.subset_nil.mp hkept]

theorem shows_outputs (registry : Registry) (captures : Captures) (d : Draft) :
    ∀ o ∈ ((Bundle.outputsOf t registry captures effects).run d).1, o.Shows := by
  intro o ho
  rw [outputs_eq] at ho
  obtain ⟨⟨d', s⟩, hpoint, hs⟩ := List.mem_filterMap.mp ho
  obtain ⟨e, he, rfl⟩ := List.mem_map.mp (mem_steps_of_mem_trace hpoint)
  cases hplan : e.plan? t with
  | none =>
    simp only [output?, Effect.compile_run, hplan] at hs
    cases hs
  | some plan =>
    simp only [output?, Effect.compile_eq hplan] at hs
    rw [← Option.some.inj hs]
    exact e.shows_deliver _ ((Effect.shows_plan hplan).carryOut d' e registry _)

end Bundle

end JokerRules
