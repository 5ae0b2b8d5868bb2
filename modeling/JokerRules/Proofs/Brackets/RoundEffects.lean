import JokerRules.Proofs.Brackets.Outputs

/-! Effects on scores, on quantities of the run, on its course and on the item's own variables. -/

namespace JokerRules.Brackets

open Text

structure TidyField (f : ScoreField) : Prop where
  key : Neutral f.key
  stem : Plain f.stem
  colour : Neutral f.colour

theorem tidy_field {kind : EffectKind} {f : ScoreField} (h : ScoreField.ofKind? kind = some f) :
    TidyField f := by
  cases kind <;> cases h <;> exact ⟨neutral_fixed rfl, plain_fixed (by decide), neutral_fixed rfl⟩

def NeutralLever : Lever → Prop
  | .stored target => Neutral target
  | .eased function current => Neutral function ∧ Neutral current

theorem NeutralLever.apply {lever : Lever} (h : NeutralLever lever) (op : Operation)
    {amount : String} (hamount : Neutral amount) : Neutral (lever.apply op amount) := by
  cases lever with
  | stored target => exact neutral_assignment op h hamount
  | eased function current =>
    exact neutral_template
      [.hole _ h.1, .fixed _, .hole _ (neutral_change op h.2 hamount), .fixed _] rfl

def PlainCaption : Caption → Prop
  | .change unit => Plain unit
  | .notice _ => True

theorem PlainCaption.message {caption : Caption} (h : PlainCaption caption) (op : Operation)
    {amount : String} (hamount : Neutral amount) : Neutral (caption.message op amount) := by
  cases caption with
  | change unit => exact neutral_changeMessage op hamount h
  | notice text => exact neutral_quote text

structure TidyChange (change : Change) : Prop where
  lever : NeutralLever change.lever
  caption : PlainCaption change.caption
  colour : Neutral change.colour

structure TidyQuantity (q : Quantity) : Prop where
  stem : Plain q.stem
  held : ∀ lever ∈ q.held, NeutralLever lever
  fired : ∀ change ∈ q.fired, TidyChange change

theorem tidy_quantity {kind : EffectKind} {q : Quantity} (h : Quantity.ofKind? kind = some q) :
    TidyQuantity q := by
  have hstored : ∀ {cs : List Char}, scan ⟨.code, []⟩ cs = some ⟨.code, []⟩ →
      NeutralLever (.stored (String.ofList cs)) := neutral_fixed
  have heased : ∀ {cs ds : List Char}, scan ⟨.code, []⟩ cs = some ⟨.code, []⟩ →
      scan ⟨.code, []⟩ ds = some ⟨.code, []⟩ →
      NeutralLever (.eased (String.ofList cs) (String.ofList ds)) :=
    fun hc hd => ⟨neutral_fixed hc, neutral_fixed hd⟩
  have hone : ∀ {l : Lever}, NeutralLever l → ∀ lever ∈ [l], NeutralLever lever := by simp
  have hsome : ∀ {change : Change}, TidyChange change → ∀ c ∈ some change, TidyChange c := by simp
  cases kind <;> cases h
  case editHands | editDiscards =>
    exact ⟨plain_fixed (by decide), List.forall_mem_cons.mpr ⟨hstored rfl, hone (heased rfl rfl)⟩,
      hsome ⟨heased rfl rfl, plain_fixed (by decide), neutral_fixed rfl⟩⟩
  case editHandSize | editShopSlots =>
    exact ⟨plain_fixed (by decide), hone (heased rfl rfl),
      hsome ⟨heased rfl rfl, plain_fixed (by decide), neutral_fixed rfl⟩⟩
  case freeRerolls =>
    exact ⟨plain_fixed (by decide), hone (heased rfl rfl), by simp [Quantity.freeRerolls]⟩
  case editJokerSlots | editConsumableSlots =>
    exact ⟨plain_fixed (by decide), hone (hstored rfl),
      hsome ⟨hstored rfl, plain_fixed (by decide), neutral_fixed rfl⟩⟩
  case editInterestCap | allowDebt =>
    exact ⟨plain_fixed (by decide), hone (hstored rfl),
      hsome ⟨hstored rfl, trivial, neutral_fixed rfl⟩⟩

theorem neutral_sellValueCode (op : Operation) {card amount : String} (hcard : Neutral card)
    (hamount : Neutral amount) : Neutral (Effect.sellValueCode op card amount) := by
  have hvalue : Neutral (card ++ ".ability.extra_value") := hcard.append (neutral_fixed rfl)
  exact neutral_unlines (neutral_texts [[.hole _ hvalue, .fixed _, .hole _ hvalue, .fixed _],
    [.hole _ (neutral_assignment op hvalue hamount)], [.hole _ hcard, .fixed _]] rfl)

theorem plain_target {e : Effect} {name : String} (h : e.target? = some name) : Plain name := by
  unfold Effect.target? at h
  split at h
  · obtain ⟨h, -⟩ := Option.filter_eq_some_iff.mp h
    obtain ⟨raw, -, rfl⟩ := Option.map_eq_some_iff.mp h
    exact plain_identifier raw
  · simp at h

theorem neutral_named (name : String) : Neutral (Colour.named name) := by
  unfold Colour.named
  repeat' apply neutral_ite
  all_goals exact neutral_fixed rfl

theorem tidy_showMessage (e : Effect) : TidyOutput e.showMessage :=
  tidy_bare trivial (neutral_some (neutral_quote _)) (neutral_named _) rfl rfl

theorem tidy_balance : TidyOutput Effect.balance :=
  tidy_bare (neutral_texts [[.fixed _]] rfl) (by simp [Effect.balance]) (neutral_fixed rfl) rfl rfl

theorem tidy_swapChipsMult : TidyOutput Effect.swapChipsMult :=
  tidy_bare (neutral_texts [[.fixed _]] rfl) (neutral_some (neutral_fixed rfl)) (neutral_fixed rfl)
    rfl rfl

theorem tidy_saved : TidyOutput Effect.savedOutput :=
  tidy_bare (neutral_texts [[.fixed _]] rfl) (neutral_some (neutral_fixed rfl)) (neutral_fixed rfl)
    rfl rfl

theorem tidy_disableBossBlind : TidyOutput Effect.disableBossBlind :=
  tidy_bare (neutral_unlines (neutral_texts [[.fixed _], [.fixed _], [.fixed _], [.fixed _]] rfl))
    (neutral_some (neutral_fixed rfl)) (neutral_fixed rfl) rfl rfl

section Amount

variable {v : String} (hv : Neutral v)

include hv

theorem TidyField.output {f : ScoreField} (h : TidyField f) : TidyOutput (f.output v) :=
  tidy_bare (neutral_texts [[.hole _ h.key, .fixed _, .hole _ hv]] rfl)
    (by simp [ScoreField.output]) h.colour rfl rfl

theorem tidy_retrigger : TidyOutput (Effect.retriggerOutput v) :=
  tidy_bare (neutral_texts [[.fixed _, .hole _ hv]] rfl) (neutral_some (neutral_fixed rfl))
    (neutral_fixed rfl) rfl rfl

theorem TidyChange.output {change : Change} (h : TidyChange change) (op : Operation) :
    TidyOutput (change.output op v) :=
  tidy_bare (h.lever.apply op hv) (neutral_some (h.caption.message op hv)) h.colour rfl rfl

theorem tidy_dollars (op : Operation) : TidyOutput (Effect.dollarsOutput op v) := by
  have hchange : Neutral (op.change "G.GAME.dollars" v) := neutral_change _ (neutral_fixed rfl) hv
  refine tidy_bare ?_ (neutral_some ?_) (neutral_fixed rfl) rfl rfl
  · exact neutral_ite (neutral_template [.fixed _, .hole _ hchange, .fixed _] rfl)
      (neutral_template [.fixed _, .hole _ hchange, .fixed _] rfl)
  · exact neutral_ite (neutral_template [.fixed _, .hole _ hv, .fixed _] rfl)
      (neutral_template [.fixed _, .word _ (plain_sign _), .fixed _, .hole _ hv, .fixed _] rfl)

theorem tidy_sellValue (op : Operation) (target : String) :
    TidyOutput (Effect.sellValueOutput op target v) := by
  have hself : Neutral "card" := neutral_fixed rfl
  have htarget : Neutral "target_card" := neutral_fixed rfl
  have hcode := (neutral_sellValueCode op htarget hv).indent 1
  have heach : ∀ {area : String}, Neutral area →
      Neutral (unlines ["for _, target_card in ipairs(" ++ area ++ ") do",
        indent 1 (Effect.sellValueCode op "target_card" v), "end"]) :=
    fun harea => neutral_unlines (neutral_texts [[.fixed _, .hole _ harea, .fixed _],
      [.hole _ hcode], [.fixed _]] rfl)
  refine tidy_bare ?_ (neutral_some (neutral_fixed rfl)) (neutral_fixed rfl) rfl rfl
  exact neutral_ite (heach (neutral_fixed rfl)) (neutral_ite (heach (neutral_fixed rfl))
    (neutral_sellValueCode _ hself hv))

theorem tidy_modified (op : Operation) {name : String} (hname : Plain name) :
    TidyOutput (Effect.modifiedOutput op name v) := by
  have hassignment := neutral_assignment op (plain_read hname).neutral hv
  refine ⟨trivial, neutral_some ?_, neutral_fixed rfl, List.forall_mem_singleton.mpr hassignment,
    List.forall_mem_singleton.mpr hname⟩
  cases op <;> exact neutral_fixed rfl

theorem tidy_levelUp (e : Effect) : Gives (e.levelUp v) TidyOutput := by
  have hmessage : ∀ m ∈ some "localize('k_level_up_ex')", Neutral m :=
    neutral_some (neutral_fixed rfl)
  have hcall : ∀ {hand : String}, Neutral hand →
      NeutralBody (.closure s!"level_up_hand(card, {hand}, true, {v})") := fun hhand =>
    neutral_template [.fixed _, .hole _ hhand, .fixed _, .hole _ hv, .fixed _] rfl
  unfold Effect.levelUp
  dsimp only
  split
  · exact gives_pure (tidy_bare (neutral_texts [[.fixed _, .hole _ hv]] rfl) hmessage
      (neutral_fixed rfl) rfl rfl)
  split
  · refine (gives_fresh (plain_fixed (by decide))).bind fun pool hpool => ?_
    refine (gives_fresh (plain_fixed (by decide))).bind fun chosen hchosen => ?_
    have hchoice := neutral_randomElement hpool.neutral (neutral_seed e "level_up_hand")
    refine gives_pure ⟨hcall hchosen.neutral, hmessage, neutral_fixed rfl, ?_, by simp⟩
    exact List.forall_mem_singleton.mpr (neutral_unlines (neutral_texts
      [[.fixed _, .word _ hpool, .fixed _], [.fixed _], [.fixed _],
        [.fixed _, .word _ hpool, .fixed _, .word _ hpool, .fixed _], [.fixed _], [.fixed _],
        [.fixed _, .word _ hchosen, .fixed _, .hole _ hchoice]] rfl))
  · exact gives_pure (tidy_bare (hcall (neutral_quote _)) hmessage (neutral_fixed rfl) rfl rfl)

theorem tidy_drawCards : TidyOutput (Effect.drawCardsOutput v) :=
  tidy_bare (neutral_unlines (neutral_texts [[.fixed _], [.fixed _, .hole _ hv, .fixed _],
    [.fixed _]] rfl)) (neutral_some (neutral_changeMessage .add hv (plain_fixed (by decide))))
    (neutral_fixed rfl) rfl rfl

theorem tidy_blindSize (op : Operation) : TidyOutput (Effect.blindSizeOutput op v) :=
  tidy_bare (neutral_unlines (neutral_texts
    [[.hole _ (neutral_assignment op (neutral_fixed rfl) hv)], [.fixed _], [.fixed _], [.fixed _]]
    rfl)) (neutral_some (neutral_changeMessage op hv (plain_fixed (by decide)))) (neutral_fixed rfl)
    rfl rfl

theorem tidy_ante (op : Operation) : TidyOutput (Effect.anteOutput op v) :=
  tidy_bare (neutral_unlines (neutral_texts
    [[.fixed _, .hole _ (neutral_change op (neutral_fixed rfl) hv)], [.fixed _],
      [.fixed _, .fixed _], [.fixed _]] rfl))
    (neutral_some (neutral_changeMessage op hv (plain_fixed (by decide)))) (neutral_fixed rfl)
    rfl rfl

theorem tidy_probability (op : Operation) : TidyOutput (Effect.probabilityOutput op v) :=
  tidy_bare (neutral_unlines (neutral_texts [[.fixed _],
    [.fixed _, .hole _ (neutral_assignment op (neutral_fixed rfl) hv)], [.fixed _]] rfl))
    (neutral_some (neutral_changeMessage op hv (plain_fixed (by decide)))) (neutral_fixed rfl)
    rfl rfl

end Amount

end JokerRules.Brackets
