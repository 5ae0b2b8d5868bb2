import JokerRules.Proofs.Steps

/-! What a step changes in the draft. The draft grows, the slots that the step declares are stored,
and the owner stays. -/

namespace JokerRules

/-- How many names of a stem the draft has given to slots. -/
def Draft.count (d : Draft) (stem : String) : Nat :=
  d.slotNames.getD stem 0

/-- What has been given out and noted stays. -/
structure Grows (d d' : Draft) : Prop where
  count : ∀ stem, d.count stem ≤ d'.count stem
  required : d.requiredSlots ⊆ d'.requiredSlots
  written : ∀ name, NameSet.contains d.written name = true → NameSet.contains d'.written name = true

theorem Grows.refl (d : Draft) : Grows d d :=
  ⟨fun _ => Nat.le_refl _, List.Subset.refl _, fun _ h => h⟩

theorem Grows.trans {d d' d'' : Draft} (h : Grows d d') (h' : Grows d' d'') : Grows d d'' :=
  ⟨fun stem => Nat.le_trans (h.count stem) (h'.count stem),
    List.Subset.trans h.required h'.required,
    fun name hname => h'.written name (h.written name hname)⟩

theorem Draft.count_nextSlotName (d : Draft) (stem stem' : String) :
    (d.nextSlotName stem).2.count stem' =
      if stem' = stem then d.count stem + 1 else d.count stem' := by
  simp only [Draft.count, Draft.nextSlotName, Names.next, Keyed.getD, Keyed.get?_insert]
  split <;> rfl

theorem grows_nextSlotName (d : Draft) (stem : String) : Grows d (d.nextSlotName stem).2 := by
  refine ⟨fun stem' => ?_, List.Subset.refl _, fun _ h => h⟩
  rw [Draft.count_nextSlotName]
  split
  · next h => subst h; omega
  · exact Nat.le_refl _

theorem grows_addRequired (d : Draft) (slot : Slot) : Grows d (d.addRequired slot) := by
  unfold Draft.addRequired
  split
  · exact .refl d
  · exact ⟨fun _ => Nat.le_refl _, List.subset_append_left _ _, fun _ h => h⟩

theorem grows_addWritten (d : Draft) (name : String) : Grows d (d.addWritten name) := by
  refine ⟨fun _ => Nat.le_refl _, List.Subset.refl _, fun name' h => ?_⟩
  simp only [Draft.addWritten, NameSet.contains, NameSet.add, Keyed.get?_insert]
  split
  · rfl
  · exact h

/-- From one draft to another nothing has changed but the names given out, the notes, and the slots
declared. -/
structure Declares (d d' : Draft) (passive derived : List Slot) : Prop where
  passive : d'.passiveSlots = passive.foldl (Draft.addSlot []) d.passiveSlots
  derived : d'.derivedSlots = derived.foldl (Draft.addSlot d.passiveSlots) d.derivedSlots
  odds : d'.odds = d.odds
  owner : d'.owner = d.owner
  grows : Grows d d'

theorem declares_refl (d : Draft) : Declares d d [] [] :=
  ⟨rfl, rfl, rfl, rfl, .refl d⟩

theorem Declares.addRequired {d d' : Draft} (h : Declares d d' [] []) (slot : Slot) :
    Declares d (d'.addRequired slot) [] [] := by
  have hgrows := h.grows.trans (grows_addRequired d' slot)
  unfold Draft.addRequired at hgrows ⊢
  split
  · exact h
  · next hnew =>
    rw [if_neg hnew] at hgrows
    exact ⟨h.passive, h.derived, h.odds, h.owner, hgrows⟩

theorem Declares.recordAmount {d d' : Draft} (h : Declares d d' [] []) (r : Resolved) :
    Declares d (d'.recordAmount r) [] [] := by
  have hreference : ∀ name, Declares d (d'.addReference name) [] [] := fun _ =>
    ⟨h.passive, h.derived, h.odds, h.owner, h.grows.count, h.grows.required, h.grows.written⟩
  unfold Draft.recordAmount
  cases r.reference <;> cases r.offsetSlot
  · exact h
  · exact h.addRequired _
  · exact hreference _
  · exact (hreference _).addRequired _

theorem declares_carryOut {α : Type} (d : Draft) (e : Effect) (plan : Plan α) (registry : Registry)
    (captures : Captures) : Declares d (d.carryOut e plan registry captures).2 [] [] := by
  cases plan with
  | plain make =>
    exact ⟨rfl, rfl, rfl, rfl, fun _ => Nat.le_refl _, List.Subset.refl _, fun _ h => h⟩
  | measured stem fallback make =>
    have hnext : Declares d (d.nextSlotName stem).2 [] [] :=
      ⟨rfl, rfl, rfl, rfl, grows_nextSlotName d stem⟩
    have h := hnext.recordAmount (d.resolve e stem fallback registry captures).1
    exact ⟨h.passive, h.derived, h.odds, h.owner, h.grows.count, h.grows.required,
      h.grows.written⟩

namespace Step

theorem run_held (registry : Registry) {d : Draft} {e : Effect} {plan : Plan PassiveEffect}
    (h : e.heldPlan? d.owner = some plan) :
    run registry d (held e) =
      (d.carryOut e plan registry {}).2.storePassive e.id (declares registry d (held e)) := by
  simp only [run, declares, Effect.compileHeld_run, h]

theorem run_fired (registry : Registry) (d : Draft) {e : Effect} {t : Trigger}
    (captures : Captures) {plan : Plan Output} (h : e.plan? t = some plan) :
    run registry d (fired e t captures) =
      (e.noteTarget (d.carryOut e plan registry
        (if e.kind.writesVariable then {} else captures)).2).store e.id
          (declares registry d (fired e t captures)) := by
  simp only [run, declares, Effect.compile_run, h]
  rfl

theorem Declares.noteTarget {d d' : Draft} (h : Declares d d' [] []) (e : Effect) :
    Declares d (e.noteTarget d') [] [] := by
  unfold Effect.noteTarget
  cases e.target? with
  | none => exact h
  | some name =>
    exact ⟨h.passive, h.derived, h.odds, h.owner, h.grows.trans (grows_addWritten d' name)⟩

theorem declares_held (registry : Registry) (d : Draft) (e : Effect) :
    Declares d (run registry d (held e)) (declares registry d (held e)) [] := by
  cases hplan : e.heldPlan? d.owner with
  | none =>
    simp only [run, declares, Effect.compileHeld_run, hplan]
    exact declares_refl d
  | some plan =>
    have h := declares_carryOut d e plan registry {}
    rw [run_held registry hplan]
    refine ⟨?_, h.derived, h.odds, h.owner, h.grows.count, h.grows.required, h.grows.written⟩
    exact congrArg (List.foldl (Draft.addSlot []) · _) h.passive

theorem declares_fired (registry : Registry) (d : Draft) (e : Effect) (t : Trigger)
    (captures : Captures) :
    Declares d (run registry d (fired e t captures)) []
      (declares registry d (fired e t captures)) := by
  cases hplan : e.plan? t with
  | none =>
    simp only [run, declares, Effect.compile_run, hplan]
    exact declares_refl d
  | some plan =>
    have h := Declares.noteTarget (declares_carryOut d e plan registry
      (if e.kind.writesVariable then {} else captures)) e
    rw [run_fired registry d captures hplan]
    refine ⟨h.passive, ?_, h.odds, h.owner, h.grows.count, h.grows.required, h.grows.written⟩
    simp only [Draft.store, Draft.recordSlots, h.passive, h.derived, List.foldl_nil]

theorem grows_run (registry : Registry) (d : Draft) (s : Step) : Grows d (run registry d s) := by
  cases s with
  | held e => exact (declares_held registry d e).grows
  | fired e t captures => exact (declares_fired registry d e t captures).grows
  | rolled numerator denominator =>
    have hnext := grows_nextSlotName d "odds"
    simp only [run, Draft.shareOdds]
    split
    · exact .refl d
    · exact ⟨hnext.count, hnext.required, hnext.written⟩

theorem grows_runAll (registry : Registry) (d : Draft) (steps : List Step) :
    Grows d (runAll registry d steps) := by
  induction steps generalizing d with
  | nil => exact .refl d
  | cons s steps ih => exact (grows_run registry d s).trans (ih (s.run registry d))

theorem grows_of_mem_trace {registry : Registry} {start d : Draft} {s : Step} {steps : List Step}
    (h : (d, s) ∈ trace registry start steps) :
    Grows (run registry d s) (runAll registry start steps) := by
  induction steps generalizing start with
  | nil => exact nomatch h
  | cons s' steps ih =>
    rcases List.mem_cons.mp h with heq | h
    · obtain ⟨rfl, rfl⟩ := Prod.mk.inj heq
      exact grows_runAll registry _ steps
    · exact ih h

theorem owner_run (registry : Registry) (d : Draft) (s : Step) :
    (run registry d s).owner = d.owner := by
  cases s with
  | held e => exact (declares_held registry d e).owner
  | fired e t captures => exact (declares_fired registry d e t captures).owner
  | rolled numerator denominator =>
    simp only [run, Draft.shareOdds]
    split <;> rfl

theorem owner_runAll (registry : Registry) (d : Draft) (steps : List Step) :
    (runAll registry d steps).owner = d.owner := by
  induction steps generalizing d with
  | nil => rfl
  | cons s steps ih => exact (ih (s.run registry d)).trans (owner_run registry d s)

end Step

namespace Definition

open Step

variable (item : Item) (settings : ModSettings)

def blank : Draft :=
  { owner := settings.itemKey item.slug }

/-- The compilation of the passive rules. -/
def passiveTrace : List (Draft × Step) :=
  trace settings.registry (blank item settings) (ofPassive item.rules)

def passiveDraft : Draft :=
  runAll settings.registry (blank item settings) (ofPassive item.rules)

/-- The compilation of the other rules. -/
def triggeredTrace : List (Draft × Step) :=
  trace settings.registry (passiveDraft item settings) (ofTriggered settings.registry item.rules)

theorem ruleDraft_eq_runAll :
    ruleDraft item settings = runAll settings.registry (passiveDraft item settings)
      (ofTriggered settings.registry item.rules) := by
  have h := (performs_rules item settings.registry (blank item settings)).2
  rw [runAll, List.foldl_append] at h
  exact h

theorem owner_ruleDraft : (ruleDraft item settings).owner = settings.itemKey item.slug := by
  rw [ruleDraft_eq_runAll, owner_runAll, passiveDraft, owner_runAll]
  rfl

end Definition

end JokerRules
