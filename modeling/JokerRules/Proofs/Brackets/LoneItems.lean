import JokerRules.Proofs.Brackets.Contexts

/-! Items with one rule that has one effect. The source of such an item is a context of the effect's
code. -/

namespace JokerRules.Brackets

open Text

def loneRule (t : Trigger) (e : Effect) : Rule where
  id := "r"
  trigger := t
  effects := [e]

def loneItem (t : Trigger) (e : Effect) : Item where
  id := "i"
  name := "A"
  rules := [loneRule t e]

/-- The firing of the rule, if the effect runs a closure and shows a message. -/
def loneFiring (code message colour : String) : String :=
  unlines ["return " ++ table ["message = " ++ message, "colour = " ++ colour,
    "func = " ++ closure (unlines [code])]]

theorem loneRule_firing {t : Trigger} {e : Effect} {code message colour : String} {d : Draft}
    (hplan : e.plan? t = some (.fixed
      { body := .closure code, message := some message, colour := colour }))
    (htarget : e.target? = none) (hmessage : e.message = none) :
    (Calculate.firing? [e] [] t Registry.builtin).run d =
      (some (loneFiring code message colour), d.store e.id []) := by
  have hcaptures : Capture.statements [e] = [] := by
    simp [Capture.statements, Capture.conflicts, Capture.writes, htarget, NameSet.contains,
      NameSet.ofNames]
  have hcompile : ∀ captures, e.compile t Registry.builtin captures d =
      (some { body := .closure code, message := some message, colour := colour }, d) := by
    intro captures
    have hrun := e.compile_run t Registry.builtin captures d
    simp only [hplan, Effect.noteTarget_of_none htarget, Effect.deliver, Effect.ownMessage?,
      hmessage, Option.bind_none] at hrun
    exact hrun
  have hbundle : (Bundle.compile [e] t Registry.builtin).run d =
      ({ outputs := [{ body := .closure code, message := some message, colour := colour }] },
        d.store e.id []) := by
    simp only [Bundle.compile, Bundle.outputsOf, hcaptures, bind, StateT.bind, StateT.run, hcompile]
    rfl
  have hfiring : (Calculate.firing? [e] [] t Registry.builtin).run d =
      (((Bundle.compile [e] t Registry.builtin).run d).1.code? [],
        ((Bundle.compile [e] t Registry.builtin).run d).2) := rfl
  rw [hfiring, hbundle]
  rfl

/-- The function that the game calls, if the rule has one firing under one test. -/
def loneCalculate (test firing : String) : String :=
  unlines ["function(self, card, context)",
    indent 1 (unlines [unlines ["if " ++ test ++ " then", indent 1 firing, "end"]]), "end"]

theorem loneRule_calculate {t : Trigger} {e : Effect} {test firing : String} {d d' : Draft}
    (ht : t ≠ .passive) (htest : (loneRule t e).firingTest? = some test)
    (hchanges : (loneRule t e).changesCard = false)
    (hfiring : (Calculate.firing? [e] [] t Registry.builtin).run d = (some firing, d')) :
    (Calculate.compile [loneRule t e] Registry.builtin).run d =
      (some (loneCalculate test firing), d') := by
  have hfilter : [loneRule t e].filter (·.trigger != .passive) = [loneRule t e] := by
    simp [loneRule, ht]
  have hgroups : Calculate.byGuard [loneRule t e] = [(test, [loneRule t e])] := by
    simp [Calculate.byGuard, htest, List.eraseDups_cons]
  have hblock : (Calculate.block? Registry.builtin test [loneRule t e]).run d =
      (some (unlines ["if " ++ test ++ " then", indent 1 firing, "end"]), d') := by
    have hany : [loneRule t e].any (·.changesCard) = false := by simp [hchanges]
    have hbranches : Calculate.branches Registry.builtin [loneRule t e] = pure [] := rfl
    have hfallback : Calculate.fallback? Registry.builtin [loneRule t e] =
        Calculate.firing? [e] [] t Registry.builtin := rfl
    simp only [Calculate.block?, hbranches, hfallback, hany, pure_bind, StateT.run_bind, hfiring]
    rfl
  simp only [Calculate.compile, hfilter, hgroups, Calculate.guardBlocks, StateT.run_bind, hblock,
    bind_assoc]
  rfl

def loneCell : AtlasCell :=
  ((Atlas.ofColumns 10).take false).1

/-- The draft that the rule leaves: nothing is declared. -/
def loneDraft (e : Effect) : Draft :=
  Draft.store { owner := ModSettings.itemKey {} "a" } e.id []

/-- All entries of the definition but the function that the game calls. -/
def loneEntries (t : Trigger) (e : Effect) : List String :=
  Definition.entries (loneItem t e) loneCell {} [] (loneDraft e) none {}

theorem neutral_loneEntries (t : Trigger) (e : Effect) :
    ∀ entry ∈ loneEntries t e, Neutral entry :=
  neutral_entries _ _ _ (by simp) _ (by simp) ⟨by simp, by simp, by simp⟩

def loneDefinition (t : Trigger) (e : Effect) (calculate : String) : Definition where
  key := ModSettings.itemKey {} "a"
  source := "SMODS.Joker " ++ table (loneEntries t e ++ ["calculate = " ++ calculate])
  slots := []
  requests := []

theorem loneItem_slug (t : Trigger) (e : Effect) : (loneItem t e).slug = "a" := by
  have hkey : identifier "" = "" := by decide
  have hname : identifier "A" = "a" := by decide
  simp [Item.slug, loneItem, hkey, hname]

theorem loneItem_definition {t : Trigger} {e : Effect} {calculate : String} (ht : t ≠ .passive)
    (hcalculate : ∀ d, (Calculate.compile [loneRule t e] Registry.builtin).run d =
      (some calculate, d.store e.id [])) :
    Definition.compile (loneItem t e) loneCell {} = .ok (loneDefinition t e calculate) := by
  have hpassive : [loneRule t e].filter (·.trigger == .passive) = [] := by simp [loneRule, ht]
  have hdeck : DeckCode.compile [loneRule t e] Registry.builtin = pure {} := by
    simp only [DeckCode.compile, hpassive]
    rfl
  have hrules : Definition.compileRules (loneItem t e) Registry.builtin = (do
      let passive ← DeckCode.compile [loneRule t e] Registry.builtin
      let calculate ← Calculate.compile [loneRule t e] Registry.builtin
      return (passive, calculate)) := rfl
  have hresult : Definition.ruleResult (loneItem t e) {} =
      (({}, some calculate), loneDraft e) := by
    rw [Definition.ruleResult, loneItem_slug]
    change (Definition.compileRules (loneItem t e) Registry.builtin).run _ = _
    rw [hrules, hdeck, pure_bind, StateT.run_bind, hcalculate]
    rfl
  refine Definition.compile_eq_ok_iff.mpr ⟨show trim "A" ≠ "" by decide, ?_, ?_, ?_⟩
  · simp [loneItem_slug]
  · simp only [Definition.ruleDraft, hresult]
    rfl
  · simp only [Definition.itemEntries, Definition.itemSlots, Definition.ruleDraft, hresult,
      loneItem_slug]
    rfl

theorem loneItem_mod {t : Trigger} {e : Effect} {definition : Definition}
    (h : Definition.compile (loneItem t e) loneCell {} = .ok definition)
    (hrequests : definition.requests = []) :
    Mod.compile [loneItem t e] {} =
      .ok { overrides := [], items := [definition], atlasCells := 1 } := by
  have hrepeat : Mod.firstRepeat? [] ([loneItem t e].map (·.slug)) = none := by
    simp [Mod.firstRepeat?, loneItem_slug]
  have hdefinitions : Mod.definitions {} (.ofColumns 10) [loneItem t e] =
      .ok ([definition], ((Atlas.ofColumns 10).take false).2) := by
    have htake : (Atlas.ofColumns 10).take (loneItem t e).hasOverlay =
        (loneCell, ((Atlas.ofColumns 10).take false).2) := rfl
    simp only [Mod.definitions, htake, h]
  simp only [Mod.compile, hrepeat, hdefinitions, List.flatMap_cons, List.flatMap_nil, hrequests]
  rfl

theorem surrounds_loneFiring {message colour : String} (hmessage : Neutral message)
    (hcolour : Neutral colour) :
    Surrounds [.curly] fun code => loneFiring code message colour := by
  have hreturn : Neutral "return " := neutral_fixed rfl
  have hfunc : Neutral "func = " := neutral_fixed rfl
  have hfront : ∀ entry ∈ ["message = " ++ message, "colour = " ++ colour], Neutral entry :=
    neutral_texts [[.fixed _, .hole _ hmessage], [.fixed _, .hole _ hcolour]] rfl
  have hnone : ∀ text ∈ ([] : List String), Neutral text := by simp
  exact (surrounds_unlines hnone hnone).comp ((surrounds_after hreturn).comp
    ((surrounds_table hfront hnone).comp ((surrounds_after hfunc).comp
      (surrounds_closure.comp (surrounds_unlines hnone hnone)))))

theorem surrounds_loneCalculate {test : String} (htest : Neutral test) :
    Surrounds [] (loneCalculate test) := by
  have hnone : ∀ text ∈ ([] : List String), Neutral text := by simp
  have hfunction : ∀ line ∈ ["function(self, card, context)"], Neutral line :=
    neutral_texts [[.fixed _]] rfl
  have hif : ∀ line ∈ ["if " ++ test ++ " then"], Neutral line :=
    neutral_texts [[.fixed _, .hole _ htest, .fixed _]] rfl
  have hend : ∀ line ∈ ["end"], Neutral line := neutral_texts [[.fixed _]] rfl
  exact (surrounds_unlines hfunction hend).comp ((surrounds_indent 1).comp
    ((surrounds_unlines hnone hnone).comp ((surrounds_unlines hif hend).comp
      (surrounds_indent 1))))

/-- A mod whose only effect runs some code: the code stands inside two tables. -/
theorem loneItem_surrounds {t : Trigger} {e : Effect} {test message colour code : String}
    (ht : t ≠ .passive) (htest : (loneRule t e).firingTest? = some test)
    (hchanges : (loneRule t e).changesCard = false)
    (hplan : e.plan? t = some (.fixed
      { body := .closure code, message := some message, colour := colour }))
    (htarget : e.target? = none) (hnone : e.message = none) (hmessage : Neutral message)
    (hcolour : Neutral colour) :
    ∃ m, Mod.compile [loneItem t e] {} = .ok m ∧ (WellBracketed m.source →
      scan ⟨.code, [.curly, .curly]⟩ code.toList = some ⟨.code, [.curly, .curly]⟩) := by
  have hcalculate := fun d => loneRule_calculate ht htest hchanges
    (loneRule_firing (d := d) hplan htarget hnone)
  refine ⟨_, loneItem_mod (loneItem_definition ht hcalculate) rfl, fun h => ?_⟩
  have hsource : Surrounds [] fun text => "SMODS.Joker " ++ text ++ "\n" :=
    surrounds_fixed (calm_of_all rfl) rfl rfl
  have hentry : Neutral "calculate = " := neutral_fixed rfl
  have hlast : ∀ entry ∈ ([] : List String), Neutral entry := by simp
  have hcontext := hsource.comp ((surrounds_table (neutral_loneEntries t e) hlast).comp
    ((surrounds_after hentry).comp ((surrounds_loneCalculate
      (neutral_firingTest _ test htest)).comp (surrounds_loneFiring hmessage hcolour))))
  exact hcontext code [] h

end JokerRules.Brackets
