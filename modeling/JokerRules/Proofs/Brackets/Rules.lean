import JokerRules.Proofs.Brackets.Bundles

/-! Rules. Compiling a whole list of rules gives neutral code and keeps the slot names of the draft
plain. -/

namespace JokerRules.Brackets

open Text

structure NeutralLevel (l : TableLevel) : Prop where
  entries : ∀ entry ∈ l.entries, Neutral entry
  code : ∀ statement ∈ l.code, Neutral statement

theorem neutral_level {o : Output} (h : TidyOutput o) : NeutralLevel (TableLevel.ofOutput o) := by
  have hbody := h.body
  unfold TableLevel.ofOutput
  split
  · next entries hb =>
    rw [hb] at hbody
    exact ⟨List.forall_mem_append.mpr ⟨hbody, h.statusEntries⟩, by simp⟩
  · next code hb =>
    rw [hb] at hbody
    exact ⟨h.statusEntries, List.forall_mem_singleton.mpr hbody⟩
  · exact ⟨h.statusEntries, by simp⟩

theorem NeutralLevel.render {l : TableLevel} (h : NeutralLevel l) {inner : Option String}
    (hinner : ∀ table ∈ inner, Neutral table) : Neutral (l.render inner) := by
  refine neutral_table (List.forall_mem_append.mpr ⟨List.forall_mem_append.mpr
    ⟨h.entries, neutral_func h.code⟩, fun entry hentry => ?_⟩)
  obtain ⟨table, htable, rfl⟩ := List.mem_map.mp hentry
  exact neutral_template [.fixed _, .hole _ (hinner table (Option.mem_toList.mp htable))] rfl

theorem neutral_levelChain {levels : List TableLevel} (h : ∀ l ∈ levels, NeutralLevel l) :
    ∀ table ∈ TableLevel.chain? levels, Neutral table := by
  induction levels with
  | nil => simp [TableLevel.chain?]
  | cons l levels ih =>
    obtain ⟨hl, hlevels⟩ := List.forall_mem_cons.mp h
    exact neutral_some (hl.render (ih hlevels))

theorem neutral_contentLevels {outputs : List Output} (h : ∀ o ∈ outputs, TidyOutput o) :
    ∀ l ∈ contentLevels outputs, NeutralLevel l := by
  intro l hl
  obtain ⟨o, ho, rfl⟩ := List.mem_map.mp (List.mem_filter.mp hl).1
  exact neutral_level (h o ho)

theorem neutral_firingTable {outputs : List Output} (h : ∀ o ∈ outputs, TidyOutput o)
    {blocks : List String} (hblocks : ∀ block ∈ blocks, Neutral block) :
    ∀ table ∈ firingTable? outputs blocks, Neutral table := by
  have hlevels := neutral_contentLevels h
  unfold firingTable?
  split
  · split
    · simp
    · exact neutral_levelChain (List.forall_mem_singleton.mpr ⟨by simp, hblocks⟩)
  · next l ls hcontent =>
    rw [hcontent] at hlevels
    obtain ⟨hl, hls⟩ := List.forall_mem_cons.mp hlevels
    exact neutral_levelChain (List.forall_mem_cons.mpr
      ⟨⟨hl.entries, List.forall_mem_append.mpr ⟨hl.code, hblocks⟩⟩, hls⟩)

theorem TidyBundle.code {b : Bundle} (h : TidyBundle b) {blocks : List String}
    (hblocks : ∀ block ∈ blocks, Neutral block) : ∀ code ∈ b.code? blocks, Neutral code := by
  have hresult : ∀ statement ∈ (if (contentLevels b.outputs).isEmpty then blocks
      else (firingTable? b.outputs blocks).toList.map fun table => "return " ++ table),
      Neutral statement := by
    split
    · exact hblocks
    · intro statement hstatement
      obtain ⟨table, htable, rfl⟩ := List.mem_map.mp hstatement
      have htable := neutral_firingTable h.outputs hblocks table (Option.mem_toList.mp htable)
      exact neutral_template [.fixed _, .hole _ htable] rfl
  intro code hcode
  obtain ⟨-, hcode⟩ := Option.ite_none_left_eq_some.mp hcode
  cases hcode
  exact neutral_unlines (List.forall_mem_append.mpr ⟨h.hoisted, hresult⟩)

theorem keeps_blocks (t : Trigger) {groups : List RandomGroup}
    (h : ∀ g ∈ groups, NeutralEnhancements g.effects) :
    Keeps (Calculate.blocks t Registry.builtin groups) fun blocks =>
      ∀ block ∈ blocks, Neutral block := by
  induction groups with
  | nil => exact keeps_pure (by simp)
  | cons g groups ih =>
    obtain ⟨hg, hgroups⟩ := List.forall_mem_cons.mp h
    refine (keeps_group g t hg).bind fun block hblock => ?_
    refine (ih hgroups).bind fun blocks hblocks => keeps_pure ?_
    exact List.forall_mem_append.mpr ⟨by simpa using hblock, hblocks⟩

theorem keeps_firing (t : Trigger) {effects : List Effect} (heffects : NeutralEnhancements effects)
    {groups : List RandomGroup} (hgroups : ∀ g ∈ groups, NeutralEnhancements g.effects) :
    Keeps (Calculate.firing? effects groups t Registry.builtin) fun code =>
      ∀ c ∈ code, Neutral c :=
  (keeps_bundle t heffects).bind fun _ hbundle =>
    (keeps_blocks t hgroups).bind fun _ hblocks => keeps_pure (hbundle.code hblocks)

/-- The enhancements that the rules give as authored are neutral. -/
def NeutralRules (rules : List Rule) : Prop :=
  ∀ r ∈ rules, NeutralEnhancements r.everyEffect

theorem NeutralRules.effects {rules : List Rule} (h : NeutralRules rules) {r : Rule}
    (hr : r ∈ rules) : NeutralEnhancements r.effects :=
  fun e he => h r hr e (List.mem_append_left _ he)

theorem NeutralRules.groups {rules : List Rule} (h : NeutralRules rules) {r : Rule}
    (hr : r ∈ rules) : ∀ g ∈ r.randomGroups, NeutralEnhancements g.effects :=
  fun g hg e he => h r hr e (List.mem_append_right _ (List.mem_flatMap.mpr ⟨g, hg, he⟩))

theorem keeps_branches {rules : List Rule} (h : NeutralRules rules) :
    Keeps (Calculate.branches Registry.builtin rules) fun bs =>
      ∀ b ∈ bs, Neutral b.1 ∧ Neutral b.2 := by
  induction rules with
  | nil => exact keeps_pure (by simp)
  | cons r rules ih =>
    have hrules := ih (List.forall_mem_cons.mp h).2
    unfold Calculate.branches
    split
    · exact hrules
    · next guard hguard =>
      have hguard := neutral_guard r.conditionGroups r.trigger guard hguard
      refine (keeps_firing r.trigger (h.effects List.mem_cons_self)
        (h.groups List.mem_cons_self)).bind fun code hcode => ?_
      refine hrules.bind fun bs hbs => keeps_pure (List.forall_mem_append.mpr ⟨?_, hbs⟩)
      intro b hb
      obtain ⟨c, hc, rfl⟩ := List.mem_map.mp hb
      exact ⟨hguard, hcode c (Option.mem_toList.mp hc)⟩

theorem keeps_fallback {rules : List Rule} (h : NeutralRules rules) :
    Keeps (Calculate.fallback? Registry.builtin rules) fun code => ∀ c ∈ code, Neutral c := by
  unfold Calculate.fallback?
  split
  · exact keeps_pure (by simp)
  · refine keeps_firing _ ?_ ?_
    · intro e he
      obtain ⟨r, hr, he⟩ := List.mem_flatMap.mp he
      exact h.effects (List.mem_filter.mp hr).1 e he
    · intro g hg
      obtain ⟨r, hr, hg⟩ := List.mem_flatMap.mp hg
      exact h.groups (List.mem_filter.mp hr).1 g hg

theorem neutral_laterBranches {rest : List (String × String)}
    (h : ∀ b ∈ rest, Neutral b.1 ∧ Neutral b.2) :
    ∀ line ∈ Calculate.laterBranches rest, Neutral line := by
  intro line hline
  obtain ⟨b, hb, hline⟩ := List.mem_flatMap.mp hline
  obtain ⟨hguard, hcode⟩ := h b hb
  exact neutral_texts [[.fixed _, .hole _ hguard, .fixed _], [.hole _ (hcode.indent 1)]] rfl
    line hline

theorem neutral_branchChain {bs : List (String × String)}
    (hbs : ∀ b ∈ bs, Neutral b.1 ∧ Neutral b.2) {fallback : Option String}
    (hfallback : ∀ code ∈ fallback, Neutral code) :
    ∀ code ∈ Calculate.chain? bs fallback, Neutral code := by
  cases bs with
  | nil => exact hfallback
  | cons b rest =>
    obtain ⟨guard, code⟩ := b
    obtain ⟨⟨hguard, hcode⟩, hrest⟩ := List.forall_mem_cons.mp hbs
    have hchain : ∀ last : List String, (∀ line ∈ last, Neutral line) →
        Neutral (unlines (["if " ++ guard ++ " then", indent 1 code] ++
          Calculate.laterBranches rest ++ last ++ ["end"])) := by
      intro last hlast
      refine neutral_unlines (List.forall_mem_append.mpr ⟨List.forall_mem_append.mpr
        ⟨List.forall_mem_append.mpr ⟨?_, neutral_laterBranches hrest⟩, hlast⟩, ?_⟩)
      · exact neutral_texts [[.fixed _, .hole _ hguard, .fixed _], [.hole _ (hcode.indent 1)]] rfl
      · exact neutral_texts [[.fixed _]] rfl
    cases fallback with
    | none => exact neutral_some (hchain [] (by simp))
    | some other =>
      exact neutral_some (hchain ["else", indent 1 other]
        (neutral_texts [[.fixed _], [.hole _ ((hfallback other rfl).indent 1)]] rfl))

theorem keeps_block {guard : String} (hguard : Neutral guard) {rules : List Rule}
    (h : NeutralRules rules) :
    Keeps (Calculate.block? Registry.builtin guard rules) fun block =>
      ∀ code ∈ block, Neutral code := by
  have hguard : Neutral (if rules.any (·.changesCard) then guard ++ " and not context.blueprint"
      else guard) :=
    neutral_ite (neutral_template [.hole _ hguard, .fixed _] rfl) hguard
  refine (keeps_branches h).bind fun bs hbs => (keeps_fallback h).bind fun fallback hfallback => ?_
  refine keeps_pure fun block hblock => ?_
  obtain ⟨code, hcode, rfl⟩ := Option.map_eq_some_iff.mp hblock
  have hcode := neutral_branchChain hbs hfallback code hcode
  exact neutral_unlines (neutral_texts [[.fixed _, .hole _ hguard, .fixed _],
    [.hole _ (hcode.indent 1)], [.fixed _]] rfl)

theorem neutral_firingTest (r : Rule) : ∀ test ∈ r.firingTest?, Neutral test := by
  unfold Rule.firingTest?
  split
  · exact neutral_some (neutral_fixed rfl)
  · exact neutral_eventTest _ _

theorem keeps_guardBlocks {groups : List (String × List Rule)}
    (h : ∀ g ∈ groups, Neutral g.1 ∧ NeutralRules g.2) :
    Keeps (Calculate.guardBlocks Registry.builtin groups) fun blocks =>
      ∀ block ∈ blocks, Neutral block := by
  induction groups with
  | nil => exact keeps_pure (by simp)
  | cons g groups ih =>
    obtain ⟨guard, rules⟩ := g
    obtain ⟨⟨hguard, hrules⟩, hgroups⟩ := List.forall_mem_cons.mp h
    refine (keeps_block hguard hrules).bind fun block hblock => ?_
    refine (ih hgroups).bind fun blocks hblocks => keeps_pure ?_
    exact List.forall_mem_append.mpr ⟨by simpa using hblock, hblocks⟩

theorem keeps_calculate {rules : List Rule} (h : NeutralRules rules) :
    Keeps (Calculate.compile rules Registry.builtin) fun code => ∀ c ∈ code, Neutral c := by
  have hgroups : ∀ g ∈ Calculate.byGuard (rules.filter (·.trigger != .passive)),
      Neutral g.1 ∧ NeutralRules g.2 := by
    intro g hg
    obtain ⟨guard, hguard, rfl⟩ := List.mem_map.mp hg
    obtain ⟨r, -, hguard⟩ := List.mem_filterMap.mp (List.mem_eraseDups.mp hguard)
    refine ⟨neutral_firingTest r guard hguard, fun r hr => ?_⟩
    exact h r (List.mem_filter.mp (List.mem_filter.mp hr).1).1
  refine (keeps_guardBlocks hgroups).bind fun blocks hblocks => ?_
  split
  · exact keeps_pure (by simp)
  · refine keeps_pure (neutral_some ?_)
    exact neutral_unlines (neutral_texts [[.fixed _],
      [.hole _ ((neutral_unlines hblocks).indent 1)], [.fixed _]] rfl)

end JokerRules.Brackets
