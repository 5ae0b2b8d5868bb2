import JokerRules.Calculate
import JokerRules.Proofs.Brackets.Effects
import JokerRules.Proofs.Generators

/-! Compiled effects, bundles and random groups. Their code is neutral if the enhancements that they
give are, and the slot names of the draft stay plain. -/

namespace JokerRules.Brackets

open Text

/-- The slots that have been declared and the slots of the odds have plain names. -/
structure TidyDraft (d : Draft) : Prop where
  passive : ∀ slot ∈ d.passiveSlots, Plain slot.name
  derived : ∀ slot ∈ d.derivedSlots, Plain slot.name
  odds : ∀ o ∈ d.odds, Plain o.name

/-- From a tidy draft the computation gives a result with a property and a tidy draft. -/
def Keeps {α : Type} (m : StateM Draft α) (P : α → Prop) : Prop :=
  ∀ d, TidyDraft d → P (m.run d).1 ∧ TidyDraft (m.run d).2

section Keeps

variable {α β : Type} {P : α → Prop} {Q : β → Prop}

theorem keeps_pure {a : α} (h : P a) : Keeps (pure a) P :=
  fun _ hd => ⟨h, hd⟩

theorem Keeps.bind {m : StateM Draft α} {next : α → StateM Draft β} (hm : Keeps m P)
    (hnext : ∀ a, P a → Keeps (next a) Q) : Keeps (m >>= next) Q := by
  intro d hd
  obtain ⟨ha, hd⟩ := hm d hd
  exact hnext _ ha _ hd

theorem keeps_modify {f : Draft → Draft} (h : ∀ d, TidyDraft d → TidyDraft (f d)) :
    Keeps (modify f) fun _ => True :=
  fun d hd => ⟨trivial, h d hd⟩

theorem keeps_get : Keeps get fun _ => True :=
  fun _ hd => ⟨trivial, hd⟩

end Keeps

theorem TidyDraft.recordAmount {d : Draft} (h : TidyDraft d) (r : Resolved) :
    TidyDraft (d.recordAmount r) := by
  have href : ∀ name, TidyDraft (d.addReference name) := fun _ => ⟨h.passive, h.derived, h.odds⟩
  have hreq : ∀ (d : Draft) (slot : Slot), TidyDraft d → TidyDraft (d.addRequired slot) := by
    intro d slot hd
    unfold Draft.addRequired
    split
    · exact hd
    · exact ⟨hd.passive, hd.derived, hd.odds⟩
  unfold Draft.recordAmount
  cases r.reference <;> cases r.offsetSlot
  · exact h
  · exact hreq _ _ h
  · exact href _
  · exact hreq _ _ (href _)

theorem tidy_resolve {d : Draft} (h : TidyDraft d) (e : Effect) {stem : String}
    (hstem : Plain stem) (fallback : Value) {captures : Captures}
    (hcaptures : PlainCaptures captures) :
    TidyAmount (d.resolve e stem fallback Registry.builtin captures).1 ∧
      TidyDraft (d.resolve e stem fallback Registry.builtin captures).2 := by
  have hnext : TidyDraft (d.nextSlotName stem).2 := ⟨h.passive, h.derived, h.odds⟩
  have hname : Plain (d.nextSlotName stem).1 := plain_nth hstem _
  have hvalue := tidy_ofValue ((e.params.get? "value").getD fallback) e.id hname hcaptures
  simp only [Draft.resolve]
  exact ⟨hvalue, hnext.recordAmount _⟩

/-- The result of a plan has the plan's property, and the slots of its amount have plain names. -/
theorem tidy_carryOut {α : Type} {P : α → Prop} {d : Draft} (h : TidyDraft d) (e : Effect)
    {plan : Plan α} (hplan : TidyPlan P plan) {captures : Captures}
    (hcaptures : PlainCaptures captures) :
    P (d.carryOut e plan Registry.builtin captures).1.1 ∧
      (∀ slot ∈ (d.carryOut e plan Registry.builtin captures).1.2, Plain slot.name) ∧
      TidyDraft (d.carryOut e plan Registry.builtin captures).2 := by
  cases plan with
  | plain make => exact ⟨hplan _, by simp [Draft.carryOut], h.passive, h.derived, h.odds⟩
  | measured stem fallback make =>
    obtain ⟨hstem, hmake⟩ := hplan
    obtain ⟨hr, hd⟩ := tidy_resolve h e hstem fallback hcaptures
    exact ⟨hmake _ hr.expr _, hr.slots, hd.passive, hd.derived, hd.odds⟩

theorem mem_addSlot {taken slots : List Slot} {slot s : Slot}
    (h : s ∈ Draft.addSlot taken slots slot) : s ∈ slots ∨ s = slot := by
  unfold Draft.addSlot at h
  split at h
  · exact .inl h
  · simpa using h

theorem mem_foldl_addSlot {taken news slots : List Slot} {s : Slot}
    (h : s ∈ news.foldl (Draft.addSlot taken) slots) : s ∈ slots ∨ s ∈ news := by
  induction news generalizing slots with
  | nil => exact .inl h
  | cons new news ih =>
    rcases ih h with h | h
    · rcases mem_addSlot h with h | rfl
      · exact .inl h
      · exact .inr List.mem_cons_self
    · exact .inr (List.mem_cons_of_mem _ h)

theorem TidyDraft.store {d : Draft} (h : TidyDraft d) (effectId : String) {slots : List Slot}
    (hslots : ∀ slot ∈ slots, Plain slot.name) : TidyDraft (d.store effectId slots) := by
  refine ⟨h.passive, fun slot hslot => ?_, h.odds⟩
  rcases mem_foldl_addSlot hslot with hslot | hslot
  · exact h.derived slot hslot
  · exact hslots slot hslot

theorem TidyDraft.storePassive {d : Draft} (h : TidyDraft d) (effectId : String)
    {slots : List Slot} (hslots : ∀ slot ∈ slots, Plain slot.name) :
    TidyDraft (d.storePassive effectId slots) := by
  refine ⟨fun slot hslot => ?_, h.derived, h.odds⟩
  rcases mem_foldl_addSlot hslot with hslot | hslot
  · exact h.passive slot hslot
  · exact hslots slot hslot

theorem keeps_shareOdds (numerator denominator : UInt32) :
    Keeps (modifyGet (·.shareOdds numerator denominator)) Plain := by
  intro d hd
  have hname : Plain (d.nextSlotName "odds").1 := plain_nth (plain_fixed (by decide)) _
  show Plain (d.shareOdds _ _).1 ∧ TidyDraft (d.shareOdds _ _).2
  simp only [Draft.shareOdds]
  split
  · next odds hodds => exact ⟨hd.odds odds (List.mem_of_find?_eq_some hodds), hd⟩
  · refine ⟨hname, hd.passive, fun slot hslot => ?_, fun o ho => ?_⟩
    · rcases List.mem_append.mp hslot with hslot | hslot
      · exact hd.derived slot hslot
      · cases List.mem_singleton.mp hslot
        exact hname
    · rcases List.mem_append.mp ho with ho | ho
      · exact hd.odds o ho
      · cases List.mem_singleton.mp ho
        exact hname

/-- The enhancements that the effects give as authored are neutral. -/
def NeutralEnhancements (effects : List Effect) : Prop :=
  ∀ e ∈ effects, ∀ raw ∈ givenEnhancement? e, Neutral (Effect.centre raw)

theorem TidyOutput.announce {o : Output} (h : TidyOutput o) (text : String) :
    TidyOutput (o.announce text) := by
  refine ⟨?_, neutral_some (neutral_quote text), h.colour, h.hoisted, h.slots⟩
  have hbody := h.body
  dsimp only [Output.announce]
  split
  · next entries hfields =>
    rw [hfields] at hbody
    exact List.forall_mem_append.mpr ⟨hbody, neutral_texts [[.fixed _]] rfl⟩
  · exact hbody

theorem TidyOutput.deliver {o : Output} (h : TidyOutput o) (e : Effect) {slots : List Slot}
    (hslots : ∀ slot ∈ slots, Plain slot.name) : TidyOutput (e.deliver slots o) := by
  unfold Effect.deliver
  cases e.ownMessage? with
  | none =>
    exact ⟨h.body, h.message, h.colour, h.hoisted, List.forall_mem_append.mpr ⟨hslots, h.slots⟩⟩
  | some text =>
    have h := h.announce text
    exact ⟨h.body, h.message, h.colour, h.hoisted, List.forall_mem_append.mpr ⟨hslots, h.slots⟩⟩

theorem TidyDraft.noteTarget {d : Draft} (h : TidyDraft d) (e : Effect) :
    TidyDraft (e.noteTarget d) := by
  unfold Effect.noteTarget
  split
  · exact ⟨h.passive, h.derived, h.odds⟩
  · exact h

theorem keeps_effect (e : Effect) (t : Trigger)
    (he : ∀ raw ∈ givenEnhancement? e, Neutral (Effect.centre raw)) {captures : Captures}
    (hcaptures : PlainCaptures captures) :
    Keeps (e.compile t Registry.builtin captures) fun o => ∀ output ∈ o, TidyOutput output := by
  intro d hd
  have hcaptures : PlainCaptures (if e.kind.writesVariable then {} else captures) := by
    split
    · exact fun name held hheld => nomatch hheld
    · exact hcaptures
  rw [Effect.compile_run]
  cases hplan : e.plan? t with
  | none => exact ⟨by simp, hd⟩
  | some plan =>
    obtain ⟨houtput, hslots, hd⟩ := tidy_carryOut hd e (tidy_plan e t he plan hplan) hcaptures
    refine ⟨?_, hd.noteTarget e⟩
    rintro _ ⟨⟩
    exact houtput.deliver e hslots

theorem keeps_outputs (t : Trigger) {captures : Captures} (hcaptures : PlainCaptures captures)
    {effects : List Effect} (h : NeutralEnhancements effects) :
    Keeps (Bundle.outputsOf t Registry.builtin captures effects) fun outputs =>
      ∀ o ∈ outputs, TidyOutput o := by
  induction effects with
  | nil => exact keeps_pure (by simp)
  | cons e effects ih =>
    obtain ⟨he, hrest⟩ := List.forall_mem_cons.mp h
    refine (keeps_effect e t he hcaptures).bind fun output houtput => ?_
    cases output with
    | none => exact ih hrest
    | some output =>
      have houtput := houtput output rfl
      refine (keeps_modify fun d hd => hd.store e.id houtput.slots).bind fun _ _ => ?_
      refine (ih hrest).bind fun outputs houtputs => keeps_pure ?_
      exact List.forall_mem_cons.mpr ⟨houtput, houtputs⟩

structure TidyBundle (b : Bundle) : Prop where
  prelude : ∀ statement ∈ b.prelude, Neutral statement
  outputs : ∀ o ∈ b.outputs, TidyOutput o

theorem keeps_bundle (t : Trigger) {effects : List Effect} (h : NeutralEnhancements effects) :
    Keeps (Bundle.compile effects t Registry.builtin) TidyBundle :=
  (keeps_outputs t (plainCaptures effects) h).bind fun _ houtputs =>
    keeps_pure ⟨neutral_captureStatements effects, houtputs⟩

theorem TidyBundle.hoisted {b : Bundle} (h : TidyBundle b) :
    ∀ statement ∈ b.hoisted, Neutral statement := by
  refine List.forall_mem_append.mpr ⟨h.prelude, fun statement hstatement => ?_⟩
  obtain ⟨o, ho, hstatement⟩ := List.mem_flatMap.mp hstatement
  exact (h.outputs o ho).hoisted statement hstatement

theorem TidyOutput.statusEntries {o : Output} (h : TidyOutput o) :
    ∀ entry ∈ o.statusEntries, Neutral entry := by
  unfold Output.statusEntries
  split
  · next message hmessage =>
    exact neutral_texts [[.fixed _, .hole _ (h.message message hmessage)],
      [.fixed _, .hole _ h.colour]] rfl
  · simp

theorem neutral_inlineTable {entries : List String} (h : ∀ entry ∈ entries, Neutral entry) :
    Neutral (Output.inlineTable entries) := by
  have hcomma : Neutral ", " := neutral_fixed rfl
  exact neutral_template [.fixed _, .hole _ (neutral_intercalate hcomma h), .fixed _] rfl

theorem TidyOutput.status {o : Output} (h : TidyOutput o) :
    ∀ statement ∈ o.status, Neutral statement := by
  unfold Output.status
  split
  · simp
  · exact neutral_texts
      [[.fixed _, .hole _ (neutral_inlineTable h.statusEntries), .fixed _]] rfl

theorem TidyOutput.statements {o : Output} (h : TidyOutput o) :
    ∀ statement ∈ o.statements, Neutral statement := by
  have hbody := h.body
  unfold Output.statements
  split
  · next entries hb =>
    rw [hb] at hbody
    have hentries := neutral_inlineTable (List.forall_mem_append.mpr ⟨hbody, h.statusEntries⟩)
    exact neutral_texts [[.fixed _, .hole _ hentries, .fixed _]] rfl
  · next code hb =>
    rw [hb] at hbody
    exact List.forall_mem_cons.mpr ⟨hbody, h.status⟩
  · exact h.status

theorem neutral_func {code : List String} (h : ∀ statement ∈ code, Neutral statement) :
    ∀ entry ∈ (if code.isEmpty then [] else ["func = " ++ closure (unlines code)]),
      Neutral entry := by
  split
  · simp
  · exact neutral_texts [[.fixed _, .hole _ (neutral_closure (neutral_unlines h))]] rfl

theorem TidyBundle.statements {b : Bundle} (h : TidyBundle b) {statements : List String}
    (hb : b.statements? = some statements) : ∀ statement ∈ statements, Neutral statement := by
  have hcalls : ∀ statement ∈ (b.outputs.filter (!·.repeats)).flatMap (·.statements),
      Neutral statement := by
    intro statement hstatement
    obtain ⟨o, ho, hstatement⟩ := List.mem_flatMap.mp hstatement
    exact (h.outputs o (List.mem_filter.mp ho).1).statements statement hstatement
  unfold Bundle.statements? at hb
  split at hb
  · cases hb
    exact hcalls
  · next o ho =>
    split at hb
    · next entries hentries =>
      cases hb
      have ho := h.outputs o (List.mem_of_find?_eq_some ho)
      have hbody := ho.body
      rw [hentries] at hbody
      have htable := neutral_table (List.forall_mem_append.mpr
        ⟨List.forall_mem_append.mpr ⟨hbody, ho.statusEntries⟩, neutral_func hcalls⟩)
      exact neutral_texts [[.fixed _, .hole _ htable]] rfl
    · cases hb

theorem neutral_roll (g : RandomGroup) {slot : String} (hslot : Plain slot) (owner : String) :
    Neutral (g.roll slot owner) := by
  have hseed := neutral_singleQuoted ("group_" ++ identifier g.id)
  have hnumerator := plain_toString_nat g.numerator.toNat
  have hodds := plain_read hslot
  refine neutral_ite ?_ ?_
  · exact neutral_template [.fixed _, .hole _ hseed, .fixed _, .word _ hnumerator, .fixed _,
      .word _ hodds] rfl
  · exact neutral_template [.fixed _, .hole _ hseed, .fixed _, .word _ hnumerator, .fixed _,
      .word _ hodds, .fixed _, .hole _ (neutral_singleQuoted owner), .fixed _] rfl

theorem keeps_group (g : RandomGroup) (t : Trigger) (h : NeutralEnhancements g.effects) :
    Keeps (g.compile t Registry.builtin) fun block => ∀ code ∈ block, Neutral code := by
  refine (keeps_bundle t h).bind fun bundle hbundle => ?_
  split
  · exact keeps_pure (by simp)
  · refine (keeps_shareOdds g.numerator g.denominator).bind fun odds hodds => ?_
    split
    case h_2 => exact keeps_pure (by simp)
    next statements hstatements =>
    refine keeps_get.bind fun d _ => keeps_pure (neutral_some ?_)
    have hcode := (neutral_unlines (List.forall_mem_append.mpr
      ⟨hbundle.hoisted, hbundle.statements hstatements⟩)).indent 1
    exact neutral_unlines (neutral_texts [[.fixed _, .hole _ (neutral_roll g hodds d.owner),
      .fixed _], [.hole _ hcode], [.fixed _]] rfl)

end JokerRules.Brackets
