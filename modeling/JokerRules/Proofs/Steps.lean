import JokerRules.Proofs.Blocks
import JokerRules.Proofs.Compilation
import JokerRules.Proofs.Generators

/-! The steps in which the rules of an item are compiled. Compiling the rules leaves the draft that
the steps leave when they are run one after another. -/

namespace JokerRules

inductive Step
  /-- An effect that holds while the item is owned. -/
  | held (e : Effect)
  /-- An effect of a firing. -/
  | fired (e : Effect) (t : Trigger) (captures : Captures)
  /-- The roll of a random group that has any code. -/
  | rolled (numerator denominator : UInt32)

namespace Step

def run (registry : Registry) (d : Draft) : Step → Draft
  | held e => ((e.compileHeld registry).run d).2
  | fired e t captures =>
    match (e.compile t registry captures).run d with
    | (none, d) => d
    | (some output, d) => d.store e.id output.newSlots
  | rolled numerator denominator => (d.shareOdds numerator denominator).2

/-- The odds that a group rolls against. -/
def oddsOf (d : Draft) (numerator denominator : UInt32) : Odds :=
  ⟨(d.shareOdds numerator denominator).1, numerator, if denominator = 0 then 1 else denominator⟩

/-- The slot that holds a denominator. -/
def slotOf (odds : Odds) : Slot :=
  { name := odds.name, initial := .int (Int64.ofNat odds.denominator.toNat) }

/-- The slots that the step asks for. -/
def declares (registry : Registry) (d : Draft) : Step → List Slot
  | held e =>
    match e.heldPlan? d.owner with
    | none => []
    | some plan => (d.carryOut e plan registry {}).1.2
  | fired e t captures => ((e.compile t registry captures).run d).1.elim [] (·.newSlots)
  | rolled numerator denominator => [slotOf (oddsOf d numerator denominator)]

def ofBundle (t : Trigger) (effects : List Effect) : List Step :=
  effects.map fun e => fired e t (Capture.captures effects)

def hasCode (t : Trigger) (effects : List Effect) : Bool :=
  effects.any fun e => (e.plan? t).isSome

def ofGroup (t : Trigger) (g : RandomGroup) : List Step :=
  ofBundle t g.effects ++ if hasCode t g.effects then [rolled g.numerator g.denominator] else []

def ofFiring (effects : List Effect) (groups : List RandomGroup) (t : Trigger) : List Step :=
  ofBundle t effects ++ groups.flatMap (ofGroup t)

def ofBranch (registry : Registry) (r : Rule) : List Step :=
  if (r.guard? registry).isSome then ofFiring r.effects r.randomGroups r.trigger else []

def ofFallback (registry : Registry) (rules : List Rule) : List Step :=
  match rules.getLast? with
  | none => []
  | some last =>
    let free := rules.filter fun r => (r.guard? registry).isNone
    ofFiring (free.flatMap (·.effects)) (free.flatMap (·.randomGroups)) last.trigger

/-- The steps of the passive rules, which are compiled first. -/
def ofPassive (rules : List Rule) : List Step :=
  ((rules.filter (·.trigger == .passive)).flatMap (·.effects)).map held

/-- The steps of the other rules, guard by guard. -/
def ofTriggered (registry : Registry) (rules : List Rule) : List Step :=
  (Calculate.byGuard (rules.filter (·.trigger != .passive))).flatMap fun block =>
    block.2.flatMap (ofBranch registry) ++ ofFallback registry block.2

def runAll (registry : Registry) (d : Draft) (steps : List Step) : Draft :=
  steps.foldl (run registry) d

/-- From every draft the computation gives a result with a property, and it leaves the draft that
the steps leave. -/
def Performs {α : Type} (registry : Registry) (m : StateM Draft α) (steps : List Step)
    (P : α → Prop) : Prop :=
  ∀ d, P (m.run d).1 ∧ (m.run d).2 = runAll registry d steps

section Performs

variable {α β : Type} {registry : Registry} {P : α → Prop} {Q : β → Prop}

theorem performs_pure {a : α} (h : P a) : Performs registry (pure a) [] P :=
  fun _ => ⟨h, rfl⟩

theorem Performs.bind {m : StateM Draft α} {next : α → StateM Draft β} {steps rest : List Step}
    (hm : Performs registry m steps P) (hnext : ∀ a, P a → Performs registry (next a) rest Q) :
    Performs registry (m >>= next) (steps ++ rest) Q := by
  intro d
  obtain ⟨ha, hd⟩ := hm d
  obtain ⟨hb, hrest⟩ := hnext _ ha (m.run d).2
  refine ⟨hb, hrest.trans ?_⟩
  rw [hd]
  exact List.foldl_append.symm

theorem Performs.map {m : StateM Draft α} {f : α → β} {steps : List Step}
    (hm : Performs registry m steps P) (hf : ∀ a, P a → Q (f a)) :
    Performs registry (do return f (← m)) steps Q := by
  have hpure : ∀ a, P a → Performs registry (pure (f a)) [] Q := fun a ha => performs_pure (hf a ha)
  have h := hm.bind hpure
  rwa [List.append_nil] at h

end Performs

theorem isNone_compile (e : Effect) (t : Trigger) (registry : Registry) (captures : Captures)
    (d : Draft) :
    ((e.compile t registry captures).run d).1.isNone = (e.plan? t).isNone := by
  rw [Effect.compile_run]
  cases e.plan? t <;> rfl

/-- The bundle is empty exactly if none of its effects means anything under the trigger. -/
theorem performs_outputs (t : Trigger) (registry : Registry) (captures : Captures)
    (effects : List Effect) :
    Performs registry (Bundle.outputsOf t registry captures effects)
      (effects.map fun e => fired e t captures)
      fun outputs => outputs.isEmpty = !hasCode t effects := by
  induction effects with
  | nil => exact performs_pure rfl
  | cons e effects ih =>
    intro d
    have hnone := isNone_compile e t registry captures d
    simp only [Bundle.outputsOf, List.map_cons, runAll, List.foldl_cons, run, hasCode, List.any_cons]
    cases hcompile : (e.compile t registry captures).run d with
    | mk result d' =>
      rw [hcompile] at hnone
      cases result with
      | none =>
        obtain ⟨hempty, hdraft⟩ := ih d'
        have hplan : (e.plan? t).isSome = false := by simpa using hnone.symm
        simp only [StateT.run_bind, hcompile, hplan, Bool.false_or]
        exact ⟨hempty, hdraft⟩
      | some output =>
        obtain ⟨-, hdraft⟩ := ih (d'.store e.id output.newSlots)
        have hplan : (e.plan? t).isSome = true := by
          simpa [Option.isNone_eq_false_iff] using hnone.symm
        simp only [StateT.run_bind, hcompile, hplan, Bool.true_or]
        exact ⟨rfl, hdraft⟩

theorem performs_bundle (t : Trigger) (registry : Registry) (effects : List Effect) :
    Performs registry (Bundle.compile effects t registry) (ofBundle t effects)
      fun b => b.isEmpty = !hasCode t effects :=
  (performs_outputs t registry (Capture.captures effects) effects).map fun _ h => h

theorem performs_rolledBlock (g : RandomGroup) (t : Trigger) (registry : Registry) :
    Performs registry (g.block? t registry) (ofGroup t g)
      fun block => block.isNone = !hasCode t g.effects := by
  refine (performs_bundle t registry g.effects).bind fun bundle hbundle => ?_
  cases hcode : hasCode t g.effects with
  | false =>
    simp only [hbundle, hcode, Bool.not_false, if_true]
    exact performs_pure rfl
  | true =>
    simp only [hbundle, hcode, Bool.not_true]
    exact fun _ => ⟨rfl, rfl⟩

theorem performs_group (g : RandomGroup) (t : Trigger) (registry : Registry) :
    Performs registry (g.compile t registry) (ofGroup t g)
      fun code => code.isNone = !hasCode t g.effects := by
  rw [g.compile_eq_block t registry]
  exact (performs_rolledBlock g t registry).map fun _ h => by rwa [Option.isNone_map]

theorem performs_blocks (t : Trigger) (registry : Registry) (groups : List RandomGroup) :
    Performs registry (Calculate.blocks t registry groups) (groups.flatMap (ofGroup t))
      fun _ => True := by
  induction groups with
  | nil => exact performs_pure trivial
  | cons g groups ih =>
    exact (performs_group g t registry).bind fun _ _ => ih.map fun _ _ => trivial

theorem performs_firing (effects : List Effect) (groups : List RandomGroup) (t : Trigger)
    (registry : Registry) :
    Performs registry (Calculate.firing? effects groups t registry) (ofFiring effects groups t)
      fun _ => True :=
  (performs_bundle t registry effects).bind fun _ _ =>
    (performs_blocks t registry groups).map fun _ _ => trivial

theorem performs_branches (registry : Registry) (rules : List Rule) :
    Performs registry (Calculate.branches registry rules) (rules.flatMap (ofBranch registry))
      fun _ => True := by
  induction rules with
  | nil => exact performs_pure trivial
  | cons r rules ih =>
    simp only [Calculate.branches, List.flatMap_cons, ofBranch]
    cases r.guard? registry with
    | none => exact ih
    | some guard =>
      exact (performs_firing r.effects r.randomGroups r.trigger registry).bind fun _ _ =>
        ih.map fun _ _ => trivial

theorem performs_fallback (registry : Registry) (rules : List Rule) :
    Performs registry (Calculate.fallback? registry rules) (ofFallback registry rules)
      fun _ => True := by
  unfold Calculate.fallback? ofFallback
  cases rules.getLast? with
  | none => exact performs_pure trivial
  | some last => exact performs_firing _ _ _ registry

theorem performs_block (registry : Registry) (guard : String) (rules : List Rule) :
    Performs registry (Calculate.block? registry guard rules)
      (rules.flatMap (ofBranch registry) ++ ofFallback registry rules) fun _ => True :=
  (performs_branches registry rules).bind fun _ _ =>
    (performs_fallback registry rules).map fun _ _ => trivial

theorem performs_guardBlocks (registry : Registry) (blocks : List (String × List Rule)) :
    Performs registry (Calculate.guardBlocks registry blocks)
      (blocks.flatMap fun block =>
        block.2.flatMap (ofBranch registry) ++ ofFallback registry block.2) fun _ => True := by
  induction blocks with
  | nil => exact performs_pure trivial
  | cons block blocks ih =>
    exact (performs_block registry block.1 block.2).bind fun _ _ => ih.map fun _ _ => trivial

theorem performs_calculate (registry : Registry) (rules : List Rule) :
    Performs registry (Calculate.compile rules registry) (ofTriggered registry rules)
      fun _ => True := by
  have h : Performs registry (Calculate.compile rules registry) (ofTriggered registry rules ++ [])
      fun _ => True := by
    refine (performs_guardBlocks registry _).bind fun blocks _ => ?_
    split <;> exact performs_pure trivial
  rwa [List.append_nil] at h

theorem performs_held (registry : Registry) (effects : List Effect) :
    Performs registry (DeckCode.compileEffects registry effects) (effects.map held)
      fun _ => True := by
  induction effects with
  | nil => exact performs_pure trivial
  | cons e effects ih =>
    have he : Performs registry (e.compileHeld registry) [held e] fun _ => True :=
      fun _ => ⟨trivial, rfl⟩
    exact he.bind fun _ _ => ih.map fun _ _ => trivial

theorem performs_passive (registry : Registry) (rules : List Rule) :
    Performs registry (DeckCode.compile rules registry) (ofPassive rules) fun _ => True :=
  (performs_held registry _).map fun _ _ => trivial

theorem performs_rules (item : Item) (registry : Registry) :
    Performs registry (Definition.compileRules item registry)
      (ofPassive item.rules ++ ofTriggered registry item.rules) fun _ => True :=
  (performs_passive registry item.rules).bind fun _ _ =>
    (performs_calculate registry item.rules).map fun _ _ => trivial

/-- The steps, each with the draft that it starts from. -/
def trace (registry : Registry) : Draft → List Step → List (Draft × Step)
  | _, [] => []
  | d, s :: steps => (d, s) :: trace registry (s.run registry d) steps

theorem trace_append (registry : Registry) (d : Draft) (steps rest : List Step) :
    trace registry d (steps ++ rest) =
      trace registry d steps ++ trace registry (runAll registry d steps) rest := by
  induction steps generalizing d with
  | nil => rfl
  | cons s steps ih => exact congrArg ((d, s) :: ·) (ih (s.run registry d))

theorem mem_steps_of_mem_trace {registry : Registry} {start d : Draft} {s : Step}
    {steps : List Step}
    (h : (d, s) ∈ trace registry start steps) : s ∈ steps := by
  induction steps generalizing start with
  | nil => exact nomatch h
  | cons s' steps ih =>
    rcases List.mem_cons.mp h with heq | h
    · exact (Prod.mk.inj heq).2 ▸ List.mem_cons_self
    · exact List.mem_cons_of_mem _ (ih h)

/-- All slots that the steps of a trace ask for. -/
def declared (registry : Registry) (points : List (Draft × Step)) : List Slot :=
  points.flatMap fun p => p.2.declares registry p.1

theorem mem_declared {registry : Registry} {points : List (Draft × Step)} {d : Draft} {s : Step}
    {slot : Slot} (h : (d, s) ∈ points) (hslot : slot ∈ s.declares registry d) :
    slot ∈ declared registry points :=
  List.mem_flatMap.mpr ⟨_, h, hslot⟩

theorem declared_cons (registry : Registry) (p : Draft × Step) (points : List (Draft × Step)) :
    declared registry (p :: points) = p.2.declares registry p.1 ++ declared registry points :=
  List.flatMap_cons

/-- The odds that the groups of a trace roll against. -/
def rolls (points : List (Draft × Step)) : List Odds :=
  points.filterMap fun
    | (d, rolled numerator denominator) => some (oddsOf d numerator denominator)
    | _ => none

theorem mem_rolls {points : List (Draft × Step)} {o : Odds} :
    o ∈ rolls points ↔ ∃ d numerator denominator, (d, rolled numerator denominator) ∈ points ∧
      o = oddsOf d numerator denominator := by
  constructor
  · intro h
    obtain ⟨⟨d, s⟩, hmem, ho⟩ := List.mem_filterMap.mp h
    cases s with
    | held e => exact nomatch ho
    | fired e t captures => exact nomatch ho
    | rolled numerator denominator =>
      exact ⟨d, numerator, denominator, hmem, (Option.some.inj ho).symm⟩
  · rintro ⟨d, numerator, denominator, hmem, rfl⟩
    exact List.mem_filterMap.mpr ⟨_, hmem, rfl⟩

end Step

end JokerRules
