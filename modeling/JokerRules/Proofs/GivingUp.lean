import JokerRules.Proofs.Dropped

/-! Giving up. A generator can give up at any point, and a group of effects has one more such point
after its odds are shared. None of them is reached with a draft that has changed. -/

namespace JokerRules

open Step

/-- Whenever the generator gives up, the draft and the slots asked for are as they were before. -/
def Generator.GivesUpFirst {α : Type} (g : Generator α) : Prop :=
  ∀ scene bench, (g.run scene bench).1 = none → (g.run scene bench).2 = bench

/-- Giving up once an amount has been read is too late: its slot name is taken by then. -/
example : ¬Generator.GivesUpFirst (do
    let _ ← ({ kind := .addChips, id := "e" } : Effect).amount "chips" (.int 1)
    failure : Generator Unit) := by
  intro hfirst
  have hbench := hfirst ⟨.handPlayed, .builtin, {}⟩ { draft := { owner := "j" } } rfl
  revert hbench
  decide +kernel

theorem givesUpFirst_of_outcome {α : Type} {g : Generator α} {e : Effect}
    (plan : Scene → Workbench → Option (Plan α))
    (h : ∀ scene bench, g.run scene bench = Plan.outcome (plan scene bench) e scene bench) :
    g.GivesUpFirst := by
  intro scene bench hnone
  rw [h] at hnone ⊢
  cases hplan : plan scene bench with
  | none => rfl
  | some p =>
    rw [hplan] at hnone
    cases hnone

theorem givesUpFirst_generate (e : Effect) : e.generate.GivesUpFirst :=
  givesUpFirst_of_outcome (fun scene _ => e.plan? scene.trigger) e.run_generate

theorem givesUpFirst_generateHeld (e : Effect) : e.generateHeld.GivesUpFirst :=
  givesUpFirst_of_outcome (fun _ bench => e.heldPlan? bench.draft.owner) e.run_generateHeld

theorem isSome_combineSuits (e : Effect) (owner owner' : String) :
    (e.combineSuits? owner).isSome = (e.combineSuits? owner').isSome := by
  unfold Effect.combineSuits?
  generalize Suit.parse? (e.params.textOr "suit_1" "Hearts") = a
  generalize Suit.parse? (e.params.textOr "suit_2" "Diamonds") = b
  cases a with
  | none => simp only [Option.bind_eq_bind, Option.bind_none]
  | some a =>
    cases b with
    | none => simp only [Option.bind_eq_bind, Option.bind_some, Option.bind_none]
    | some b =>
      simp only [Option.bind_eq_bind, Option.bind_some]
      split <;> simp only [Option.isSome_none, Option.isSome_some]

theorem isSome_combineRanks (e : Effect) (owner owner' : String) :
    (e.combineRanks? owner).isSome = (e.combineRanks? owner').isSome := by
  unfold Effect.combineRanks?
  generalize Effect.anyRank? (e.params.textOr "source_ranks" "face") = ranks
  generalize Rank.parse? (e.params.textOr "target_rank" "K") = target
  cases ranks with
  | none => simp only [Option.bind_eq_bind, Option.bind_none]
  | some ranks =>
    cases target with
    | none => simp only [Option.bind_eq_bind, Option.bind_some, Option.bind_none]
    | some target => simp only [Option.bind_eq_bind, Option.bind_some, Option.pure_def,
        Option.isSome_some]

/-- The owner takes no part in whether an effect means anything. -/
theorem isSome_heldPlan (e : Effect) (owner owner' : String) :
    (e.heldPlan? owner).isSome = (e.heldPlan? owner').isSome := by
  cases hkind : e.kind <;> simp only [Effect.heldPlan?, hkind, Option.isSome_some, Option.isSome_map]
  case combineSuits => exact isSome_combineSuits e owner owner'
  case combineRanks => exact isSome_combineRanks e owner owner'

theorem compileHeld_dropped {e : Effect} {owner : String} (h : (e.heldPlan? owner).isSome = false)
    (registry : Registry) (d : Draft) : (e.compileHeld registry).run d = (none, d) := by
  have hplan : e.heldPlan? d.owner = none := by
    simpa [isSome_heldPlan e owner d.owner] using h
  simp only [Effect.compileHeld_run, hplan]

theorem isNone_compileHeld (e : Effect) (registry : Registry) (d : Draft) :
    ((e.compileHeld registry).run d).1.isNone = (e.heldPlan? d.owner).isNone := by
  rw [Effect.compileHeld_run]
  cases e.heldPlan? d.owner <;> rfl

theorem runAll_dropped {t : Trigger} {effects : List Effect} (h : hasCode t effects = false)
    (registry : Registry) (captures : Captures) (d : Draft) :
    runAll registry d (effects.map fun e => fired e t captures) = d := by
  induction effects with
  | nil => rfl
  | cons e effects ih =>
    obtain ⟨he, hrest⟩ := Bool.or_eq_false_iff.mp h
    have hstep : run registry d (fired e t captures) = d := by
      simp only [run, compile_dropped he registry captures d]
    rw [List.map_cons, runAll, List.foldl_cons, hstep]
    exact ih hrest

theorem group_dropped {g : RandomGroup} {t : Trigger} (h : hasCode t g.effects = false)
    (registry : Registry) (d : Draft) : (g.compile t registry).run d = (none, d) := by
  obtain ⟨hnone, hdraft⟩ := performs_group g t registry d
  rw [h, Bool.not_false] at hnone
  refine Prod.ext (Option.isNone_iff_eq_none.mp hnone) (hdraft.trans ?_)
  rw [ofGroup, h, if_neg Bool.false_ne_true, List.append_nil]
  exact runAll_dropped h registry _ d

/-- From every draft the computation gives nothing and leaves the draft as it is. -/
def Drops {α : Type} (m : StateM Draft (Option α)) : Prop :=
  ∀ d, m.run d = (none, d)

theorem drops_compile_iff (e : Effect) (t : Trigger) (registry : Registry) (captures : Captures)
    (d : Draft) :
    ((e.compile t registry captures).run d).1 = none ↔
      ∀ registry captures, Drops (e.compile t registry captures) := by
  constructor
  · intro hnone registry' captures'
    have hplan := isNone_compile e t registry captures d
    rw [hnone, Option.isNone_none] at hplan
    exact compile_dropped (by simpa using hplan.symm) registry' captures'
  · intro hdrops
    rw [hdrops]

theorem group_eq_none_iff (g : RandomGroup) (t : Trigger) (registry : Registry) (d : Draft) :
    ((g.compile t registry).run d).1 = none ↔ hasCode t g.effects = false := by
  rw [← Option.isNone_iff_eq_none, (performs_group g t registry d).1, Bool.not_eq_true']

/-- No generator gives up once it has touched the draft. What gives nothing once, an effect, a held
effect or a random group, is dropped everywhere: it gives nothing under any registry, and no draft
is changed by it. A group is dropped exactly if each of its effects is. -/
theorem draft_unchanged_of_none (registry : Registry) (d : Draft) :
    (∀ e : Effect, e.generate.GivesUpFirst ∧ e.generateHeld.GivesUpFirst) ∧
    (∀ (e : Effect) t captures, ((e.compile t registry captures).run d).1 = none ↔
      ∀ registry captures, Drops (e.compile t registry captures)) ∧
    (∀ e : Effect, ((e.compileHeld registry).run d).1 = none ↔
      ∀ registry, Drops (e.compileHeld registry)) ∧
    ∀ (g : RandomGroup) t, (((g.compile t registry).run d).1 = none ↔
        ∀ registry, Drops (g.compile t registry)) ∧
      (((g.compile t registry).run d).1 = none ↔
        ∀ e ∈ g.effects, ∀ registry captures, Drops (e.compile t registry captures)) := by
  refine ⟨fun e => ⟨givesUpFirst_generate e, givesUpFirst_generateHeld e⟩,
    fun e t captures => drops_compile_iff e t registry captures d, fun e => ?_, fun g t => ?_⟩
  · refine ⟨fun hnone registry' => ?_, fun hdrops => by rw [hdrops]⟩
    have hplan := isNone_compileHeld e registry d
    rw [hnone, Option.isNone_none] at hplan
    exact compileHeld_dropped (by simpa using hplan.symm) registry'
  · refine ⟨⟨fun hnone registry' => ?_, fun hdrops => by rw [hdrops]⟩, ?_⟩
    · exact group_dropped ((group_eq_none_iff g t registry d).mp hnone) registry'
    · rw [group_eq_none_iff, hasCode, List.any_eq_false]
      refine forall₂_congr fun e _ => ?_
      rw [← drops_compile_iff e t registry {} d, ← Option.isNone_iff_eq_none, isNone_compile]
      simp

end JokerRules
