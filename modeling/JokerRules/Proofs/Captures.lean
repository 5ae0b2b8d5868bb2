import JokerRules.Proofs.CapturedRuns

/-! Captured values. The code before the returned table captures variables and then writes them, so
an effect that reads a variable reads the value from before the firing. -/

namespace JokerRules

open Text Statement

theorem Effect.hoisted_deliver (e : Effect) (slots : List Slot) (output : Output) :
    (e.deliver slots output).hoisted = output.hoisted := by
  unfold Effect.deliver
  cases e.ownMessage? <;> rfl

theorem Effect.compile_eq {e : Effect} {t : Trigger} {plan : Plan Output}
    (h : e.plan? t = some plan) (registry : Registry) (captures : Captures) (d : Draft) :
    ((e.compile t registry captures).run d).1 =
      let result := d.carryOut e plan registry (if e.kind.writesVariable then {} else captures)
      some (e.deliver result.1.2 result.1.1) := by
  simp only [Effect.compile_run, h]

/-- The code of an output is quiet or writes the effect's variable. -/
def Tame (effects : List Effect) (text : String) : Prop :=
  Quiet text ∨ ∃ e ∈ effects, ∃ name expr, e.target? = some name ∧
    text = Slot.read name ++ " = " ++ expr

theorem isName_target {e : Effect} {name : String} (h : e.target? = some name) :
    IsName name.toList := by
  unfold Effect.target? at h
  split at h
  · obtain ⟨hsome, hne⟩ := Option.filter_eq_some_iff.mp h
    obtain ⟨raw, -, rfl⟩ := Option.map_eq_some_iff.mp hsome
    have hne : identifier raw ≠ "" := by simpa using hne
    exact ⟨fun hnil => hne (String.toList_eq_nil_iff.mp hnil), isNameChar_identifier raw⟩
  · exact nomatch h

theorem tame_carryOut {e : Effect} {t : Trigger} {plan : Plan Output} (h : e.plan? t = some plan)
    {effects : List Effect} (he : e ∈ effects) (d : Draft) (registry : Registry)
    (captures : Captures) :
    ∀ text ∈ (d.carryOut e plan registry captures).1.1.hoisted, Tame effects text := by
  by_cases hkind : e.kind = .modifyInternalVariable
  · simp only [Effect.plan?, hkind] at h
    obtain ⟨name, hname, rfl⟩ := Option.map_eq_some_iff.mp h
    intro text htext
    obtain rfl := List.mem_singleton.mp htext
    obtain ⟨expr, hexpr⟩ := assignment_eq (Operation.ofParams e.params .add) (Slot.read name)
      (d.resolve e (name ++ "_change") (.int 1) registry captures).1.amount.expr
    exact .inr ⟨e, he, name, expr, hname, hexpr⟩
  · exact fun text htext => .inl ((quiet_plan h hkind).carryOut d e registry captures text htext)

namespace Step

def output? (registry : Registry) (d : Draft) : Step → Option Output
  | fired e t captures => ((e.compile t registry captures).run d).1
  | _ => none

/-- The outputs of a bundle are those of its steps. -/
theorem outputs_eq (t : Trigger) (registry : Registry) (captures : Captures)
    (effects : List Effect) (d : Draft) :
    ((Bundle.outputsOf t registry captures effects).run d).1 =
      (trace registry d (effects.map fun e => fired e t captures)).filterMap fun p =>
        p.2.output? registry p.1 := by
  induction effects generalizing d with
  | nil => rfl
  | cons e effects ih =>
    simp only [Bundle.outputsOf, List.map_cons, trace, List.filterMap_cons, output?, run]
    cases hcompile : (e.compile t registry captures).run d with
    | mk result d' =>
      cases result with
      | none =>
        simp only [StateT.run_bind, hcompile]
        exact ih d'
      | some output =>
        simp only [StateT.run_bind, hcompile]
        exact congrArg (output :: ·) (ih (d'.store e.id output.newSlots))

theorem length_outputs (t : Trigger) (registry : Registry) (captures : Captures)
    (effects : List Effect) (d : Draft) :
    ((trace registry d (effects.map fun e => fired e t captures)).filterMap fun p =>
      p.2.output? registry p.1).length = (effects.filter fun e => (e.plan? t).isSome).length := by
  induction effects generalizing d with
  | nil => rfl
  | cons e effects ih =>
    have hnone := isNone_compile e t registry captures d
    simp only [List.map_cons, trace, List.filterMap_cons, output?, List.filter_cons]
    cases hplan : e.plan? t with
    | none =>
      rw [hplan, Option.isNone_none, Option.isNone_iff_eq_none] at hnone
      rw [hnone]
      exact ih _
    | some plan =>
      rw [hplan, Option.isNone_some, Option.isNone_eq_false_iff] at hnone
      obtain ⟨output, houtput⟩ := Option.isSome_iff_exists.mp hnone
      rw [houtput]
      exact congrArg (· + 1) (ih _)

end Step

open Step

section Bundle

variable {effects : List Effect} {t : Trigger} {registry : Registry} {d : Draft}

theorem tame_outputs {text : String}
    (h : text ∈ ((Bundle.compile effects t registry).run d).1.outputs.flatMap (·.hoisted)) :
    Tame effects text := by
  obtain ⟨output, houtput, htext⟩ := List.mem_flatMap.mp h
  have houtput : output ∈ ((Bundle.outputsOf t registry (Capture.captures effects) effects).run d).1 :=
    houtput
  rw [outputs_eq] at houtput
  obtain ⟨⟨d', s⟩, hpoint, hs⟩ := List.mem_filterMap.mp houtput
  obtain ⟨e, he, rfl⟩ := List.mem_map.mp (mem_steps_of_mem_trace hpoint)
  cases hplan : e.plan? t with
  | none =>
    simp only [output?, Effect.compile_run, hplan] at hs
    cases hs
  | some plan =>
    simp only [output?, Effect.compile_eq hplan] at hs
    rw [← Option.some.inj hs, Effect.hoisted_deliver] at htext
    exact tame_carryOut hplan he d' registry _ text htext

theorem not_capturing_of_tame {text : String} (h : Tame effects text) : ¬Capturing text := by
  rintro ⟨name, hread⟩
  rcases h with hquiet | ⟨e, -, slot, expr, htarget, rfl⟩
  · exact hquiet.not_loud (loud_of_read_bind hread (value_localOf name))
  · rw [read_write (isName_target htarget)] at hread
    exact nomatch hread

theorem not_writing_of_mem_statements {text : String} (h : text ∈ Capture.statements effects) :
    ¬Writing text := by
  obtain ⟨name, hname, rfl⟩ := List.mem_map.mp h
  rintro ⟨slot, expr, hread⟩
  rw [read_capture (Capture.isName_of_mem_conflicts hname)] at hread
  exact nomatch hread

theorem captures_precede_writes (effects : List Effect) (t : Trigger) (registry : Registry)
    (d : Draft) : ((Bundle.compile effects t registry).run d).1.hoisted.Pairwise fun text later =>
      Writing text → ¬Capturing later := by
  refine List.pairwise_append.mpr ⟨?_, ?_, ?_⟩
  · refine List.pairwise_iff_forall_sublist.mpr fun hle hwriting => ?_
    exact absurd hwriting (not_writing_of_mem_statements (hle.subset List.mem_cons_self))
  · refine List.pairwise_iff_forall_sublist.mpr fun hle _ => ?_
    exact not_capturing_of_tame (tame_outputs (hle.subset (by simp)))
  · intro text htext later _ hwriting
    exact absurd hwriting (not_writing_of_mem_statements htext)

/-- What the code before the table leaves: other slots as they were, and the earlier value of each
captured variable. -/
theorem runs_hoisted {V : Type} {eval : Store V → String → V} {s s' : Store V}
    (h : Runs eval ((Bundle.compile effects t registry).run d).1.hoisted s s') :
    (∀ slot, NameSet.contains (Capture.writes effects) slot = false →
        s'.slots slot = s.slots slot) ∧
      ∀ name ∈ Capture.conflicts effects,
        s'.locals (Capture.localOf name) = some (s.slots name) := by
  obtain ⟨between, hcaptures, houtputs⟩ := runs_append eval h
  obtain ⟨hslots, hbound, -⟩ :=
    runs_captures (fun _ hname => Capture.isName_of_mem_conflicts hname) hcaptures
  have hkeeps : Keeps (fun slot => NameSet.contains (Capture.writes effects) slot = true) between
      s' := by
    refine keeps_runs (fun text htext s s' hexec => ?_) houtputs
    rcases tame_outputs htext with hquiet | ⟨e, he, name, expr, htarget, rfl⟩
    · exact hquiet.keeps hexec
    · exact keeps_write (isName_target htarget) (Capture.contains_writes.mpr ⟨e, he, htarget⟩) hexec
  refine ⟨fun slot hslot => ?_, fun name hname => ?_⟩
  · rw [hkeeps.slots slot (by simp [hslot]), hslots]
  · rw [hkeeps.locals _ (value_localOf name), hbound name hname]

end Bundle

/-- A reference is captured if its variable is written. -/
theorem mem_conflicts_of_reference {effects : List Effect} {e : Effect} (he : e ∈ effects)
    {raw : String} (hvalue : e.params.get? "value" = some (.str raw))
    (hnumber : (Value.str raw).number? = none) (hname : identifier raw ≠ "")
    (hwritten : NameSet.contains (Capture.writes effects) (identifier raw) = true) :
    identifier raw ∈ Capture.conflicts effects := by
  exact Capture.mem_conflicts.mpr ⟨⟨e, he, ("value", .str raw), Keyed.mem_entries_of_get? hvalue,
    Capture.readName?_value hnumber hname⟩, Capture.contains_writes.mp hwritten⟩

theorem expr_ofReference {raw : String} (h : identifier raw ≠ "") (captures : Captures) :
    (Resolved.ofReference raw captures).amount.expr =
      (captures.get? (identifier raw)).getD (Slot.read (identifier raw)) := by
  unfold Resolved.ofReference
  rw [if_neg h]
  cases captures.get? (identifier raw) <;> rfl

/-- The value of a reference after the code before the table. -/
theorem value_ofReference {V : Type} {eval : Store V → String → V} {s s' : Store V}
    {effects : List Effect} {e : Effect} (he : e ∈ effects) {raw : String}
    (hvalue : e.params.get? "value" = some (.str raw)) (hnumber : (Value.str raw).number? = none)
    (hname : identifier raw ≠ "")
    (hslots : ∀ slot, NameSet.contains (Capture.writes effects) slot = false →
        s'.slots slot = s.slots slot)
    (hlocals : ∀ name ∈ Capture.conflicts effects,
        s'.locals (Capture.localOf name) = some (s.slots name)) :
    s'.value eval (Resolved.ofReference raw (Capture.captures effects)).amount.expr =
      s.slots (identifier raw) := by
  have hget := Capture.get?_captures effects (identifier raw)
  by_cases hconflict : identifier raw ∈ Capture.conflicts effects
  · have hlocal := isName_localOf (Capture.isName_of_mem_conflicts hconflict)
    rw [if_pos hconflict] at hget
    rw [expr_ofReference hname, hget, Option.getD_some, Store.value_local eval s' hlocal.2,
      hlocals _ hconflict, Option.getD_some]
  · rw [if_neg hconflict] at hget
    rw [expr_ofReference hname, hget, Option.getD_none,
      Store.value_slot eval s' (isNameChar_identifier raw)]
    refine hslots _ (Bool.eq_false_iff.mpr fun hwritten => hconflict ?_)
    exact mem_conflicts_of_reference he hvalue hnumber hname hwritten

/-- The output of an effect that reads a reference. -/
theorem output?_reference (registry : Registry) (captures : Captures) (d : Draft) {t : Trigger}
    {e : Effect} (hwrites : e.kind.writesVariable = false) {stem : String} {fallback : Value}
    {make : String → Naming Output} (hplan : e.plan? t = some (.measured stem fallback make))
    {raw : String} (hvalue : e.params.get? "value" = some (.str raw))
    (hmarked : Encoding.isMarked raw = false) (hnumber : (Value.str raw).number? = none) :
    ∃ names, output? registry d (fired e t captures) = some (e.deliver []
      ((make (Resolved.ofReference raw captures).amount.expr).run names).1) := by
  have hresolve : (d.resolve e stem fallback registry captures).1 =
      Resolved.ofReference raw captures := by
    simp only [Draft.resolve, hvalue, Option.getD_some, Resolved.ofValue, hmarked, hnumber,
      Bool.false_eq_true, if_false]
  refine ⟨(d.resolve e stem fallback registry captures).2.localNames, ?_⟩
  rw [output?, Effect.compile_eq hplan]
  simp only [hwrites, Bool.false_eq_true, if_false, Draft.carryOut, Draft.naming, hresolve,
    Resolved.newSlots_ofReference]
  rfl

/-- The effects that compile before an effect tell where its output stands. -/
theorem getElem?_outputs (registry : Registry) (captures : Captures) {t : Trigger}
    (before after : List Effect) {e : Effect} (h : (e.plan? t).isSome = true) (d : Draft) :
    ∃ d', ((Bundle.outputsOf t registry captures (before ++ e :: after)).run d).1[
      (before.filter fun e => (e.plan? t).isSome).length]? =
        output? registry d' (fired e t captures) := by
  rw [outputs_eq, List.map_append, List.map_cons, trace_append, List.filterMap_append, trace,
    List.filterMap_cons]
  generalize hd' : runAll registry d (before.map fun e => fired e t captures) = d'
  have hsome : (output? registry d' (fired e t captures)).isSome = true := by
    have hnone := isNone_compile e t registry captures d'
    rw [Option.isNone_eq_false_iff.mpr h, Option.isNone_eq_false_iff] at hnone
    exact hnone
  obtain ⟨output, houtput⟩ := Option.isSome_iff_exists.mp hsome
  refine ⟨d', ?_⟩
  rw [← length_outputs t registry captures before d, List.getElem?_append_right (Nat.le_refl _),
    Nat.sub_self]
  simp only [houtput, List.getElem?_cons_zero]

/-- In every run of the code before the table, captures come first, only written variables change,
and an effect that reads a variable gets an expression for the value from before. -/
theorem references_read_earlier_values {V : Type} (eval : Store V → String → V)
    (effects : List Effect) (t : Trigger) (registry : Registry) (d : Draft) :
    let b := ((Bundle.compile effects t registry).run d).1
    (b.hoisted.Pairwise fun text later => Writing text → ¬Capturing later) ∧
    ∀ s, (∃ s', Runs eval b.hoisted s s') ∧ ∀ s', Runs eval b.hoisted s s' →
      (∀ slot, NameSet.contains (Capture.writes effects) slot = false →
        s'.slots slot = s.slots slot) ∧
      ∀ before e after, effects = before ++ e :: after → e.kind.writesVariable = false →
        ∀ stem fallback make, e.plan? t = some (.measured stem fallback make) →
        ∀ raw, e.params.get? "value" = some (.str raw) → Encoding.isMarked raw = false →
          (Value.str raw).number? = none → identifier raw ≠ "" →
          ∃ expr names,
            b.outputs[(before.filter fun e => (e.plan? t).isSome).length]? =
              some (e.deliver [] ((make expr).run names).1) ∧
            s'.value eval expr = s.slots (identifier raw) := by
  intro b
  refine ⟨captures_precede_writes effects t registry d, fun s => ⟨exists_runs eval _ s, ?_⟩⟩
  intro s' hruns
  obtain ⟨hslots, hlocals⟩ := runs_hoisted hruns
  refine ⟨hslots, ?_⟩
  intro before e after hsplit hwrites stem fallback make hplan raw hvalue hmarked hnumber hname
  have he : e ∈ effects := hsplit ▸ by simp
  have hvalueAfter : s'.value eval (Resolved.ofReference raw (Capture.captures effects)).amount.expr =
      s.slots (identifier raw) := value_ofReference he hvalue hnumber hname hslots hlocals
  obtain ⟨d', hplace⟩ := getElem?_outputs registry (Capture.captures effects) before after
    (Option.isSome_iff_exists.mpr ⟨_, hplan⟩) d
  rw [← hsplit] at hplace
  obtain ⟨names, houtput⟩ := output?_reference registry (Capture.captures effects) d' hwrites hplan
    hvalue hmarked hnumber
  exact ⟨_, names, hplace.trans houtput, hvalueAfter⟩

/-- Adds the value of a variable to the multiplier. -/
def countReader : Effect where
  id := "a"
  kind := .addMult
  params := .ofList [("value", .str " Stack  Count ")]

def countWriter (operation name : String) : Effect where
  id := "b"
  kind := .modifyInternalVariable
  params := .ofList [("operation", .str operation), ("variable_name", .str name)]

/-- One variable, written twice and read once under three spellings of its name. -/
def countEffects : List Effect :=
  [countWriter "add" "stack-count", countReader, countWriter "multiply" "STACK COUNT"]

def countBundle : Bundle :=
  ((Bundle.compile countEffects .handPlayed .builtin).run { owner := "j" }).1

theorem countReader_reads_earlier_value :
    countBundle.hoisted = [
        "local stack_count_value = card.ability.extra.stack_count",
        "card.ability.extra.stack_count = " ++
          "card.ability.extra.stack_count + card.ability.extra.stack_count_change",
        "card.ability.extra.stack_count = " ++
          "card.ability.extra.stack_count * card.ability.extra.stack_count_change2"] ∧
      ∃ (s' : Store Nat) (expr : String),
        Runs (fun _ _ => 0) countBundle.hoisted ⟨fun _ => 7, fun _ => none⟩ s' ∧
        countBundle.outputs[1]?.map (·.body) = some (.fields ["mult" ++ " = " ++ expr]) ∧
        s'.value (fun _ _ => 0) expr = 7 := by
  have hvalue : countReader.params.get? "value" = some (.str " Stack  Count ") := by decide +kernel
  have hplan : countReader.plan? .handPlayed =
      some (.reading "mult" (.int 4) ScoreField.mult.output) := rfl
  have hplace : ([countWriter "add" "stack-count"].filter fun e =>
      (e.plan? .handPlayed).isSome).length = 1 := by decide +kernel
  have hread := (references_read_earlier_values (fun (_ : Store Nat) _ => 0) countEffects
    .handPlayed .builtin { owner := "j" }).2 ⟨fun _ => 7, fun _ => none⟩
  refine ⟨by decide +kernel, ?_⟩
  rw [show ((Bundle.compile countEffects .handPlayed .builtin).run { owner := "j" }).1 = countBundle
    from rfl] at hread
  generalize countBundle = b at hread ⊢
  obtain ⟨s', hrun⟩ := hread.1
  obtain ⟨expr, names, houtput, hexpr⟩ := (hread.2 s' hrun).2 [countWriter "add" "stack-count"]
    countReader [countWriter "multiply" "STACK COUNT"] rfl rfl "mult" (.int 4) _ hplan
    " Stack  Count " hvalue (by decide +kernel) (by decide +kernel) (by decide +kernel)
  rw [hplace] at houtput
  exact ⟨s', expr, hrun, congrArg (Option.map (·.body)) houtput, hexpr⟩

end JokerRules
