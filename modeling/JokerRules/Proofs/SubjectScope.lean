import JokerRules.Proofs.CardScope

/-! The subjects of conditions. Each of them reads of the event only what the trigger offers. -/

namespace JokerRules

open Text Tokens ContextUses

namespace ConditionScope

variable {t : Trigger}

/-- An expression that reads only what the trigger offers. -/
abbrev InScope (t : Trigger) (text : String) : Prop :=
  Within (fun use => use.any t.offers = true) text

theorem InScope.of_field (field : String) (h : t.offers field = true)
    (ps : List (Part (InScope t))) (hps : templateUses? ps = some [some field]) :
    InScope t (Part.template ps) :=
  within_template_of ps hps (by simpa using h)

theorem inScope_firingCard : ∀ card ∈ Subject.firingCard? t, InScope t card := by
  intro card hcard
  unfold Subject.firingCard? at hcard
  split at hcard
  · next hfires =>
    cases hcard
    exact InScope.of_field "other_card" hfires [.fixed _] rfl
  · cases hcard

theorem inScope_cardsInScope (p : Params) :
    ∀ area ∈ CardTest.cardsInScope? p t, InScope t area := by
  intro area harea
  simp only [CardTest.cardsInScope?] at harea
  split at harea
  · cases harea
    exact within_fixed rfl
  split at harea
  · next hplays =>
    cases harea
    split
    · exact InScope.of_field "full_hand" (Bool.or_eq_true_iff.mpr (.inl hplays)) [.fixed _] rfl
    · exact InScope.of_field "scoring_hand" hplays [.fixed _] rfl
  split at harea
  · next hdiscards =>
    cases harea
    exact InScope.of_field "full_hand" (Bool.or_eq_true_iff.mpr (.inr hdiscards)) [.fixed _] rfl
  · cases harea

theorem inScope_hand (p : Params) : ∀ hand ∈ Subject.hand? p t, InScope t hand := by
  intro hand hhand
  unfold Subject.hand? at hhand
  split at hhand
  · cases hhand
    exact within_quote _
  split at hhand
  · next hplays =>
    cases hhand
    exact InScope.of_field "scoring_name" hplays [.fixed _] rfl
  · cases hhand

/-- The subject's own expression, which is tested or compared. -/
def SubjectInScope (t : Trigger) : Subject → Prop
  | .test expr => InScope t expr
  | .quantity expr _ => InScope t expr

theorem inScope_handType (p : Params) : ∀ s ∈ Subject.handType? p t, SubjectInScope t s := by
  intro s hs
  obtain ⟨raw, -, hs⟩ := Option.bind_eq_some_iff.mp hs
  have hraw : InScope t (quote raw) := within_quote raw
  dsimp only at hs
  split at hs
  · next hplays =>
    cases hs
    show InScope t (ite _ _ _)
    split
    · exact InScope.of_field "poker_hands" hplays [.fixed _, .hole _ hraw, .fixed _] rfl
    · exact InScope.of_field "scoring_name" hplays [.fixed _, .hole _ hraw] rfl
  split at hs
  · next ht =>
    cases hs
    subst ht
    exact InScope.of_field "full_hand" rfl [.fixed _, .hole _ hraw] rfl
  · cases hs

theorem inScope_matching (p : Params) {filter : Option String}
    (hfilter : ∀ test ∈ filter, InScope t test) :
    ∀ s ∈ Subject.matching? p t filter, SubjectInScope t s := by
  intro s hs
  obtain ⟨area, harea, hs⟩ := Option.bind_eq_some_iff.mp hs
  obtain ⟨test, htest, rfl⟩ := Option.map_eq_some_iff.mp hs
  exact within_countWhere (within_fixed rfl) (inScope_cardsInScope p area harea) (hfilter test htest)

theorem inScope_handPlayedBefore (p : Params) :
    ∀ s ∈ Subject.handPlayedBefore? p t, SubjectInScope t s := by
  intro s hs
  obtain ⟨hand, hhand, rfl⟩ := Option.map_eq_some_iff.mp hs
  have hin := inScope_hand p hand hhand
  show InScope t (_ ++ ite _ _ _ ++ _ ++ ite _ _ _)
  split <;> split <;>
    exact within_template [.fixed _, .hole _ hin, .fixed _, .fixed _, .fixed _, .fixed _] rfl

theorem inScope_position (p : Params) : ∀ n ∈ Subject.position? p, InScope t n := by
  intro n hn
  obtain ⟨x, -, rfl⟩ := Option.map_eq_some_iff.mp hn
  exact within_number _

theorem inScope_cardIndex (p : Params) : ∀ s ∈ Subject.cardIndex? p t, SubjectInScope t s := by
  intro s hs
  obtain ⟨card, hcard, rfl⟩ := Option.map_eq_some_iff.mp hs
  have hfiring := inScope_firingCard card hcard
  have hindexed : ∀ {area place : String}, InScope t area → InScope t place →
      InScope t (card ++ " == " ++ area ++ "[" ++ place ++ "]") := fun harea hplace =>
    within_template [.hole _ hfiring, .fixed _, .hole _ harea, .fixed _, .hole _ hplace, .fixed _] rfl
  have hend : ∀ {area : String}, InScope t area →
      InScope t (if p.textOr "position" "first" = "last" then "#" ++ area else "1") := by
    intro area harea
    split
    · exact within_template [.fixed _, .hole _ harea] rfl
    · exact within_fixed rfl
  have hscored (h : t = .cardScored) : InScope t "context.scoring_hand" :=
    InScope.of_field "scoring_hand" (h ▸ rfl) [.fixed _] rfl
  have hdiscarded (h : t = .cardDiscarded) : InScope t "context.full_hand" :=
    InScope.of_field "full_hand" (h ▸ rfl) [.fixed _] rfl
  cases hposition : Subject.position? p with
  | some n =>
    have hplace : InScope t n := inScope_position p n hposition
    cases t with
    | cardScored => exact hindexed (hscored rfl) hplace
    | cardDiscarded => exact hindexed (hdiscarded rfl) hplace
    | _ => exact hindexed (within_fixed rfl) hplace
  | none =>
    cases t with
    | cardScored => exact hindexed (hscored rfl) (hend (hscored rfl))
    | cardDiscarded => exact hindexed (hdiscarded rfl) (hend (hdiscarded rfl))
    | _ => exact hindexed (within_fixed rfl) (hend (within_fixed rfl))

theorem inScope_deckCount (p : Params) : SubjectInScope t (Subject.deckCount p) := by
  unfold Subject.deckCount
  split
  · next test htest =>
    exact within_countWhere (within_fixed rfl) (within_fixed rfl)
      (within_filterTest (within_fixed rfl) p test htest)
  · exact within_fixed rfl

theorem inScope_internalVariable (p : Params) :
    ∀ s ∈ Subject.internalVariable? p, SubjectInScope t s := by
  intro s hs
  obtain ⟨raw, -, hs⟩ := Option.bind_eq_some_iff.mp hs
  split at hs
  · cases hs
  · next hne =>
    cases hs
    exact within_read hne (isNameChar_identifier raw)

theorem inScope_blindType (p : Params) : ∀ s ∈ Subject.blindType? p, SubjectInScope t s := by
  intro s hs
  obtain ⟨raw, -, hs⟩ := Option.bind_eq_some_iff.mp hs
  have hname : ∀ name : String, InScope t ("G.GAME.blind:get_type() == " ++ quote name) :=
    fun name => within_template [.fixed _, .hole _ (within_quote name)] rfl
  dsimp only at hs
  repeat' split at hs
  all_goals cases hs
  all_goals exact hname _

theorem inScope_systemDate (p : Params) : ∀ s ∈ Subject.systemDate? p, SubjectInScope t s := by
  have hclock : ∀ format : String, InScope t ("tonumber(os.date(" ++ quote format ++ "))") :=
    fun format => within_template [.fixed _, .hole _ (within_quote format), .fixed _] rfl
  intro s hs
  simp only [Subject.systemDate?] at hs
  repeat' split at hs
  all_goals cases hs
  all_goals exact hclock _

theorem inScope_rarityLiteral (raw : String) : InScope t (Subject.rarityLiteral raw) := by
  unfold Subject.rarityLiteral
  repeat' split
  all_goals first | exact within_fixed rfl | exact within_quote raw

theorem inScope_jokerCount (p : Params) : SubjectInScope t (Subject.jokerCount p) := by
  unfold Subject.jokerCount
  split
  · next raw _ =>
    exact within_countWhere (within_fixed rfl) (within_fixed rfl)
      (within_template [.fixed _, .hole _ (inScope_rarityLiteral raw)] rfl)
  · exact within_fixed rfl

theorem inScope_consumableCount (p : Params) : SubjectInScope t (Subject.consumableCount p) := by
  unfold Subject.consumableCount
  split
  · next set _ =>
    exact within_countWhere (within_fixed rfl) (within_fixed rfl)
      (within_template [.fixed _, .hole _ (within_quote set)] rfl)
  · exact within_fixed rfl

theorem inScope_jokerPosition (p : Params) :
    ∀ s ∈ Subject.jokerPosition? p, SubjectInScope t s := by
  have hstands : ∀ {place : String}, InScope t place →
      InScope t ("G.jokers.cards[" ++ place ++ "] == card") := fun h =>
    within_template [.fixed _, .hole _ h, .fixed _] rfl
  intro s hs
  simp only [Subject.jokerPosition?] at hs
  split at hs
  · next n hn =>
    cases hs
    exact hstands (inScope_position p n hn)
  split at hs
  · cases hs
    exact hstands (within_fixed rfl)
  split at hs
  · cases hs
    exact hstands (within_fixed rfl)
  · cases hs

/-- One case for each kind of condition. -/
theorem inScope_subject (kind : ConditionKind) (p : Params) :
    ∀ s ∈ kind.subject? p t, SubjectInScope t s := by
  have hplaying : InScope t "playing_card" := within_fixed rfl
  intro s hs
  cases kind with
  | handType => exact inScope_handType p s hs
  | cardCount =>
    obtain ⟨area, harea, rfl⟩ := Option.map_eq_some_iff.mp hs
    exact within_template [.fixed _, .hole _ (inScope_cardsInScope p area harea)] rfl
  | suitCount =>
    obtain ⟨raw, -, hs⟩ := Option.bind_eq_some_iff.mp hs
    exact inScope_matching p (within_suitTest hplaying raw) s hs
  | rankCount =>
    obtain ⟨raw, -, hs⟩ := Option.bind_eq_some_iff.mp hs
    exact inScope_matching p (within_rankTest hplaying raw) s hs
  | enhancementCount =>
    refine inScope_matching p ?_ s hs
    rintro test ⟨⟩
    exact within_enhancementTest hplaying _
  | sealCount =>
    refine inScope_matching p ?_ s hs
    rintro test ⟨⟩
    exact within_sealTest hplaying _
  | pokerHandBeenPlayed => exact inScope_handPlayedBefore p s hs
  | discardedCardCount =>
    simp only [ConditionKind.subject?] at hs
    split at hs
    · next hdiscards =>
      cases hs
      exact InScope.of_field "full_hand" (Bool.or_eq_true_iff.mpr (.inr hdiscards)) [.fixed _] rfl
    · cases hs
  | glassCardDestroyed =>
    simp only [ConditionKind.subject?] at hs
    split at hs
    · next ht =>
      cases hs
      exact InScope.of_field "removed" (decide_eq_true ht) [.fixed _, .fixed _, .fixed _] rfl
    · cases hs
  | cardRank =>
    obtain ⟨card, hcard, hs⟩ := Option.bind_eq_some_iff.mp hs
    obtain ⟨raw, -, hs⟩ := Option.bind_eq_some_iff.mp hs
    obtain ⟨test, htest, rfl⟩ := Option.map_eq_some_iff.mp hs
    exact within_rankTest (inScope_firingCard card hcard) raw test htest
  | cardSuit =>
    obtain ⟨card, hcard, hs⟩ := Option.bind_eq_some_iff.mp hs
    obtain ⟨raw, -, hs⟩ := Option.bind_eq_some_iff.mp hs
    obtain ⟨test, htest, rfl⟩ := Option.map_eq_some_iff.mp hs
    exact within_suitTest (inScope_firingCard card hcard) raw test htest
  | cardEnhancement =>
    obtain ⟨card, hcard, rfl⟩ := Option.map_eq_some_iff.mp hs
    exact within_enhancementTest (inScope_firingCard card hcard) _
  | cardSeal =>
    obtain ⟨card, hcard, rfl⟩ := Option.map_eq_some_iff.mp hs
    exact within_sealTest (inScope_firingCard card hcard) _
  | cardEdition =>
    obtain ⟨card, hcard, rfl⟩ := Option.map_eq_some_iff.mp hs
    exact within_editionTest (inScope_firingCard card hcard) _
  | cardIndex => exact inScope_cardIndex p s hs
  | handLevel =>
    obtain ⟨hand, hhand, rfl⟩ := Option.map_eq_some_iff.mp hs
    exact within_template [.fixed _, .hole _ (inScope_hand p hand hhand), .fixed _] rfl
  | deckSize =>
    cases hs
    show InScope t (ite _ _ _)
    split <;> exact within_fixed rfl
  | deckCount =>
    cases hs
    exact inScope_deckCount p
  | internalVariable => exact inScope_internalVariable p s hs
  | blindType => exact inScope_blindType p s hs
  | systemDate => exact inScope_systemDate p s hs
  | jokerCount =>
    cases hs
    exact inScope_jokerCount p
  | specificJoker =>
    obtain ⟨key, -, rfl⟩ := Option.map_eq_some_iff.mp hs
    exact within_template [.fixed _, .hole _ (within_quote _), .fixed _] rfl
  | jokerPosition => exact inScope_jokerPosition p s hs
  | consumableCount =>
    cases hs
    exact inScope_consumableCount p
  | voucherRedeemed =>
    obtain ⟨key, -, rfl⟩ := Option.map_eq_some_iff.mp hs
    exact within_template [.fixed _, .hole _ (within_quote _), .fixed _] rfl
  | unknown => cases hs
  | _ =>
    cases hs
    exact within_fixed rfl

end ConditionScope

end JokerRules
