import JokerRules.Proofs.Dropped

/-! Firings with and without the dropped effects. Both leave the same draft, and their code differs
at most in the captures. -/

namespace JokerRules

open Text Step

/-- From every draft both computations leave the same draft, with related results. -/
def Tracks {α β : Type} (R : α → β → Prop) (m : StateM Draft α) (m' : StateM Draft β) : Prop :=
  ∀ d, (m.run d).2 = (m'.run d).2 ∧ R (m.run d).1 (m'.run d).1

section Tracks

variable {α β α' β' : Type} {R : α → α' → Prop} {S : β → β' → Prop}

theorem tracks_pure {a : α} {a' : α'} (h : R a a') : Tracks R (pure a) (pure a') :=
  fun _ => ⟨rfl, h⟩

theorem Tracks.bind {m : StateM Draft α} {m' : StateM Draft α'} {next : α → StateM Draft β}
    {next' : α' → StateM Draft β'} (hm : Tracks R m m')
    (hnext : ∀ a a', R a a' → Tracks S (next a) (next' a')) :
    Tracks S (m >>= next) (m' >>= next') := by
  intro d
  obtain ⟨hdraft, hresult⟩ := hm d
  have h := hnext _ _ hresult (m'.run d).2
  change ((next (m.run d).1).run (m.run d).2).2 = _ ∧ S ((next (m.run d).1).run (m.run d).2).1 _
  rw [hdraft]
  exact h

theorem Tracks.map {m : StateM Draft α} {m' : StateM Draft α'} {f : α → β} {f' : α' → β'}
    (hm : Tracks R m m') (hf : ∀ a a', R a a' → S (f a) (f' a')) :
    Tracks S (do return f (← m)) (do return f' (← m')) :=
  hm.bind fun a a' h => tracks_pure (hf a a' h)

theorem tracks_same (m : StateM Draft α) : Tracks Eq m m :=
  fun _ => ⟨rfl, rfl⟩

end Tracks

/-- The bundles of all effects and of the kept ones. -/
structure Trimmed (t : Trigger) (effects : List Effect) (b b' : Bundle) : Prop where
  prelude : b.prelude = Capture.statements effects
  prelude_kept : b'.prelude = Capture.statements (kept t effects)
  outputs : b'.outputs = b.outputs
  isEmpty : b.outputs.isEmpty = !hasCode t effects
  shows : ∀ o ∈ b.outputs, o.Shows

theorem tracks_bundle (t : Trigger) (registry : Registry) (effects : List Effect) :
    Tracks (Trimmed t effects) (Bundle.compile effects t registry)
      (Bundle.compile (kept t effects) t registry) := by
  intro d
  have houtputs : Bundle.outputsOf t registry (Capture.captures effects) effects =
      Bundle.outputsOf t registry (Capture.captures (kept t effects)) (kept t effects) :=
    outputsOf_kept registry fun e he => compile_kept he registry
  obtain ⟨hempty, -⟩ := performs_outputs t registry (Capture.captures effects) effects d
  refine ⟨congrArg (fun m => (StateT.run m d).2) houtputs, rfl, rfl,
    congrArg (fun m => (StateT.run m d).1) houtputs.symm, hempty, shows_outputs registry _ d⟩

section Firing

variable {t : Trigger} {effects : List Effect} {b b' : Bundle}

theorem Trimmed.outgrows_hoisted (h : Trimmed t effects b b') :
    Outgrows (CapturesAlike t effects) b.hoisted b'.hoisted := by
  rw [Bundle.hoisted, Bundle.hoisted, h.prelude, h.prelude_kept, h.outputs]
  exact (outgrows_statements t effects).extend _

theorem Trimmed.isEmpty_kept (h : Trimmed t effects b b') : b'.isEmpty = b.isEmpty := by
  rw [Bundle.isEmpty, Bundle.isEmpty, h.outputs]

theorem Trimmed.body_block (h : Trimmed t effects b b') (test : String) :
    (b'.block test).body = (b.block test).body := by
  have hstatements : b'.statements? = b.statements? := by
    unfold Bundle.statements?
    rw [h.outputs]
  rw [b.statements?_eq test, b'.statements?_eq test] at hstatements
  exact Option.some.inj hstatements

/-- Captures come with code only. -/
theorem Trimmed.hoisted_eq_nil (h : Trimmed t effects b b') (hcode : hasCode t effects = false) :
    b.hoisted = [] := by
  have houtputs : b.outputs = [] := by simpa [hcode] using h.isEmpty
  rw [Bundle.hoisted, h.prelude, houtputs, Capture.statements, conflicts_eq_nil hcode]
  rfl

end Firing

/-- The group without its dropped effects. -/
def RandomGroup.pruned (t : Trigger) (g : RandomGroup) : RandomGroup :=
  { g with effects := kept t g.effects }

theorem any_kept {t : Trigger} {effects : List Effect} {p : Effect → Bool}
    (h : ∀ e, p e = true → (e.plan? t).isSome = true) : (kept t effects).any p = effects.any p := by
  rw [Bool.eq_iff_iff, List.any_eq_true, List.any_eq_true]
  constructor
  · rintro ⟨e, he, hp⟩
    exact ⟨e, (mem_kept.mp he).1, hp⟩
  · rintro ⟨e, he, hp⟩
    exact ⟨e, mem_kept.mpr ⟨he, h e hp⟩, hp⟩

/-- An effect that changes the odds always means something. -/
theorem roll_pruned (t : Trigger) (g : RandomGroup) : (g.pruned t).roll = g.roll := by
  have hodds : (g.pruned t).changesOdds = g.changesOdds := by
    refine any_kept fun e he => ?_
    have hkind : e.kind = .modifyProbability := by simpa [EffectKind.changesOdds] using he
    simp only [Effect.plan?, hkind, Option.isSome_some]
  funext slot owner
  simp only [RandomGroup.roll, hodds]
  rfl

theorem tracks_group (g : RandomGroup) (t : Trigger) (registry : Registry) :
    Tracks (fun block block' =>
        Matches (CapturesAlike t g.effects) (hasCode t g.effects) block.toList block'.toList)
      (g.compile t registry) ((g.pruned t).compile t registry) := by
  rw [g.compile_eq_block, (g.pruned t).compile_eq_block]
  refine Tracks.map (R := fun block block' => Matches (CapturesAlike t g.effects)
    (hasCode t g.effects) (block.map RolledBlock.text).toList (block'.map RolledBlock.text).toList)
    ?_ fun _ _ h => h
  refine (tracks_bundle t registry g.effects).bind fun b b' hb => ?_
  rw [hb.isEmpty_kept, Bundle.isEmpty, hb.isEmpty]
  cases hcode : hasCode t g.effects with
  | false =>
    have halike := capturesAlike_of_hasCode hcode
    exact tracks_pure (Matches.nil.congr (iff_of_true trivial halike))
  | true =>
    refine (tracks_same _).bind fun odds _ hodds => ?_
    subst hodds
    refine (tracks_same _).bind fun d _ hd => ?_
    subst hd
    refine tracks_pure (.one ?_)
    rw [roll_pruned]
    rw [RolledBlock.text, RolledBlock.text, hb.body_block]
    exact (hb.outgrows_hoisted.extend _).unlines.block _ _

theorem tracks_blocks (t : Trigger) (registry : Registry) (groups : List RandomGroup) :
    Tracks (Matches (∀ g ∈ groups, CapturesAlike t g.effects)
        (groups.any fun g => hasCode t g.effects))
      (Calculate.blocks t registry groups)
      (Calculate.blocks t registry (groups.map (·.pruned t))) := by
  induction groups with
  | nil => exact tracks_pure (Matches.nil.congr (by simp))
  | cons g groups ih =>
    refine (tracks_group g t registry).bind fun block block' hblock => ?_
    refine ih.map fun rest rest' hrest => ?_
    exact (hblock.append hrest).congr (by simp)

theorem contentLevels_eq {outputs : List Output} (h : ∀ o ∈ outputs, o.Shows) :
    contentLevels outputs = outputs.map TableLevel.ofOutput := by
  refine List.filter_eq_self.mpr fun l hl => ?_
  obtain ⟨o, ho, rfl⟩ := List.mem_map.mp hl
  rw [h o ho, Bool.not_false]

section Level

variable {B : Prop} {present : Bool} {blocks blocks' : List String}

theorem matches_func (h : Matches B present blocks blocks') :
    Matches B present
      (if blocks.isEmpty then [] else ["func = " ++ closure (unlines blocks)])
      (if blocks'.isEmpty then [] else ["func = " ++ closure (unlines blocks')]) := by
  have hwhole := h.whole (f := fun blocks => "func = " ++ closure (unlines blocks))
    (h.outgrows.unlines.closure.after _)
  simp only [apply_ite Option.toList, Option.toList_none, Option.toList_some] at hwhole
  exact hwhole

theorem outgrows_render (h : Matches B present blocks blocks') {l : TableLevel}
    (hl : l.isEmpty = false) (inner : Option String) :
    Outgrows B [{ l with code := l.code ++ blocks }.render inner]
      [{ l with code := l.code ++ blocks' }.render inner] := by
  have hfunc := matches_func ((Matches.refl l.code).append h)
  have hentries := ((Matches.refl l.entries).append hfunc).append
    (Matches.refl (inner.toList.map fun table => "extra = " ++ table))
  have hpresent : (!l.entries.isEmpty || (!l.code.isEmpty || present) ||
      !(inner.toList.map fun table => "extra = " ++ table).isEmpty) = true := by
    rw [TableLevel.isEmpty] at hl
    cases hempty : l.entries.isEmpty <;> simp_all
  rw [hpresent] at hentries
  exact hentries.table.congr (by simp)

variable {t : Trigger} {effects : List Effect} {b b' : Bundle}

/-- Without content the blocks stand by themselves. -/
theorem code?_of_no_outputs (hoisted : b.hoisted = []) (houtputs : b.outputs = [])
    (blocks : List String) :
    b.code? blocks = if blocks.isEmpty then none else some (unlines blocks) := by
  rw [Bundle.code?, hoisted, houtputs]
  rfl

/-- The blocks run from the first level. -/
theorem code?_of_levels {l : TableLevel} {ls : List TableLevel}
    (h : contentLevels b.outputs = l :: ls) (blocks : List String) :
    b.code? blocks = some (unlines (b.hoisted ++
      ["return " ++ { l with code := l.code ++ blocks }.render (TableLevel.chain? ls)])) := by
  simp [Bundle.code?, firingTable?, h, TableLevel.chain?]

theorem matches_code (hb : Trimmed t effects b b') (h : Matches B present blocks blocks') :
    Matches (CapturesAlike t effects ∧ B) (hasCode t effects || present) (b.code? blocks).toList
      (b'.code? blocks').toList := by
  cases hcode : hasCode t effects with
  | false =>
    have halike := capturesAlike_of_hasCode hcode
    have hoisted := hb.hoisted_eq_nil hcode
    have hoisted' : b'.hoisted = [] := hb.outgrows_hoisted.eq halike ▸ hoisted
    have houtputs : b.outputs = [] := by simpa [hcode] using hb.isEmpty
    rw [code?_of_no_outputs hoisted houtputs,
      code?_of_no_outputs hoisted' (hb.outputs.trans houtputs)]
    exact (h.whole h.outgrows.unlines).congr (by simp [halike])
  | true =>
    have hne : b.outputs ≠ [] := by
      intro hnil
      simpa [hnil, hcode] using hb.isEmpty
    obtain ⟨o, os, houtputs⟩ := List.exists_cons_of_ne_nil hne
    have hlevels : contentLevels b.outputs = .ofOutput o :: os.map .ofOutput := by
      rw [contentLevels_eq hb.shows, houtputs, List.map_cons]
    have hshows := hb.shows o (by simp [houtputs])
    rw [code?_of_levels hlevels, code?_of_levels (hb.outputs ▸ hlevels)]
    exact .one (hb.outgrows_hoisted.append ((outgrows_render h hshows _).after _)).unlines

end Level

/-- The code of a firing is the same with and without the dropped effects. -/
def FiresAlike (t : Trigger) (effects : List Effect) (groups : List RandomGroup) : Prop :=
  CapturesAlike t effects ∧ ∀ g ∈ groups, CapturesAlike t g.effects

instance (t : Trigger) (effects : List Effect) (groups : List RandomGroup) :
    Decidable (FiresAlike t effects groups) :=
  inferInstanceAs (Decidable (_ ∧ ∀ g ∈ groups, _))

def firesCode (t : Trigger) (effects : List Effect) (groups : List RandomGroup) : Bool :=
  hasCode t effects || groups.any fun g => hasCode t g.effects

theorem tracks_firing (effects : List Effect) (groups : List RandomGroup) (t : Trigger)
    (registry : Registry) :
    Tracks (fun code code' =>
        Matches (FiresAlike t effects groups) (firesCode t effects groups) code.toList code'.toList)
      (Calculate.firing? effects groups t registry)
      (Calculate.firing? (kept t effects) (groups.map (·.pruned t)) t registry) := by
  refine (tracks_bundle t registry effects).bind fun b b' hb => ?_
  exact (tracks_blocks t registry groups).map fun blocks blocks' hblocks =>
    matches_code hb hblocks

end JokerRules
