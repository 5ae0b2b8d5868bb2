import JokerRules.Proofs.Brackets.CardTests

/-! Conditions. Whatever the parameters of a condition say, its expression is an operand: texts are
quoted, numbers are written anew, words only choose between fixed expressions, and joiners stand in
brackets. -/

namespace JokerRules.Brackets

open Text

/-- The expression that a subject tests or compares. -/
def subjectText : Subject → String
  | .test expr => expr
  | .quantity expr _ => expr

def OperandSubject (s : Subject) : Prop :=
  Operand (subjectText s)

theorem operand_firingCard (t : Trigger) : ∀ card ∈ Subject.firingCard? t, Operand card := by
  intro card hcard
  unfold Subject.firingCard? at hcard
  split at hcard
  · cases hcard
    exact operand_fixed rfl
  · simp at hcard

theorem neutral_hand (p : Params) (t : Trigger) : ∀ hand ∈ Subject.hand? p t, Neutral hand := by
  intro hand hhand
  unfold Subject.hand? at hhand
  split at hhand
  · cases hhand
    exact neutral_quote _
  split at hhand
  · cases hhand
    exact neutral_fixed rfl
  · simp at hhand

theorem operand_handType (p : Params) (t : Trigger) :
    ∀ s ∈ Subject.handType? p t, OperandSubject s := by
  intro s hs
  obtain ⟨raw, -, hs⟩ := Option.bind_eq_some_iff.mp hs
  have hraw := operand_quote raw
  dsimp only at hs
  split at hs
  · cases hs
    show Operand (ite _ _ _)
    split
    · exact operand_joined [.fixed _, .enclosed _ hraw.neutral, .fixed _] rfl
    · exact operand_joined [.fixed _, .operand _ hraw] rfl
  split at hs
  · cases hs
    exact operand_joined [.fixed _, .operand _ hraw] rfl
  · simp at hs

theorem operand_matching (p : Params) (t : Trigger) {filter : Option String}
    (hfilter : ∀ test ∈ filter, Operand test) :
    ∀ s ∈ Subject.matching? p t filter, OperandSubject s := by
  intro s hs
  obtain ⟨area, harea, hs⟩ := Option.bind_eq_some_iff.mp hs
  obtain ⟨test, htest, rfl⟩ := Option.map_eq_some_iff.mp hs
  exact operand_countWhere (neutral_fixed rfl) (neutral_cardsInScope p t area harea)
    (hfilter test htest).neutral

theorem operand_handPlayedBefore (p : Params) (t : Trigger) :
    ∀ s ∈ Subject.handPlayedBefore? p t, OperandSubject s := by
  intro s hs
  obtain ⟨hand, hhand, rfl⟩ := Option.map_eq_some_iff.mp hs
  have hcount : Solid (if p.textOr "scope" "round" = "run" then "played"
      else "played_this_round") := by
    split <;> exact solid_fixed rfl
  have hthreshold : Operand (if (p.text? "hand_type").isNone then "1" else "0") := by
    split <;> exact operand_fixed rfl
  exact operand_joined [.fixed _, .enclosed _ (neutral_hand p t hand hhand), .fixed _,
    .word _ hcount, .fixed _, .operand _ hthreshold] rfl

theorem operand_glassDestroyed : Operand Subject.glassDestroyed :=
  operand_joined [.fixed _, .fixed _, .fixed _] rfl

theorem neutral_position (p : Params) : ∀ n ∈ Subject.position? p, Neutral n := by
  intro n hn
  obtain ⟨x, -, rfl⟩ := Option.map_eq_some_iff.mp hn
  exact (operand_number _).neutral

theorem neutral_place (p : Params) {area : String} (harea : Neutral area) :
    Neutral (match Subject.position? p with
      | some n => n
      | none => if p.textOr "position" "first" = "last" then "#" ++ area else "1") := by
  split
  · next n hn => exact neutral_position p n hn
  split
  · exact (neutral_fixed rfl).append harea
  · exact neutral_fixed rfl

theorem operand_cardIndex (p : Params) (t : Trigger) :
    ∀ s ∈ Subject.cardIndex? p t, OperandSubject s := by
  intro s hs
  obtain ⟨card, hcard, rfl⟩ := Option.map_eq_some_iff.mp hs
  have hindexed : ∀ {area : String}, Operand area → Operand (card ++ " == " ++ area ++ "[" ++
      (match Subject.position? p with
      | some n => n
      | none => if p.textOr "position" "first" = "last" then "#" ++ area else "1") ++ "]") :=
    fun harea => operand_joined [.operand _ (operand_firingCard t card hcard), .fixed _,
      .operand _ harea, .fixed _, .enclosed _ (neutral_place p harea.neutral), .fixed _] rfl
  cases t <;> exact hindexed (operand_fixed rfl)

theorem operand_deckCount (p : Params) : OperandSubject (Subject.deckCount p) := by
  unfold Subject.deckCount
  split
  · next test htest =>
    exact operand_countWhere (neutral_fixed rfl) (neutral_fixed rfl)
      (operand_filterTest (operand_fixed rfl) p test htest).neutral
  · exact operand_fixed rfl

theorem operand_internalVariable (p : Params) :
    ∀ s ∈ Subject.internalVariable? p, OperandSubject s := by
  intro s hs
  obtain ⟨raw, -, hs⟩ := Option.bind_eq_some_iff.mp hs
  split at hs
  · simp at hs
  · cases hs
    exact operand_read (solid_identifier raw)

theorem operand_blindType (p : Params) : ∀ s ∈ Subject.blindType? p, OperandSubject s := by
  intro s hs
  obtain ⟨raw, -, hs⟩ := Option.bind_eq_some_iff.mp hs
  have hname : ∀ name : String, Operand ("G.GAME.blind:get_type() == " ++ quote name) := fun name =>
    operand_joined [.fixed _, .operand _ (operand_quote name)] rfl
  dsimp only at hs
  split at hs
  · cases hs
    exact hname _
  split at hs
  · cases hs
    exact hname _
  split at hs
  · cases hs
    exact hname _
  · simp at hs

theorem operand_systemDate (p : Params) : ∀ s ∈ Subject.systemDate? p, OperandSubject s := by
  have hclock : ∀ format : String, Operand ("tonumber(os.date(" ++ quote format ++ "))") :=
    fun format => operand_joined [.fixed _, .enclosed _ (neutral_quote format), .fixed _] rfl
  intro s hs
  simp only [Subject.systemDate?] at hs
  repeat' split at hs
  all_goals cases hs
  all_goals exact hclock _

theorem neutral_rarityLiteral (raw : String) : Neutral (Subject.rarityLiteral raw) := by
  unfold Subject.rarityLiteral
  repeat' split
  all_goals first | exact neutral_fixed rfl | exact neutral_quote raw

theorem operand_jokerCount (p : Params) : OperandSubject (Subject.jokerCount p) := by
  unfold Subject.jokerCount
  split
  · next raw _ =>
    exact operand_countWhere (neutral_fixed rfl) (neutral_fixed rfl)
      (neutral_template [.fixed _, .hole _ (neutral_rarityLiteral raw)] rfl)
  · exact operand_fixed rfl

theorem operand_consumableCount (p : Params) : OperandSubject (Subject.consumableCount p) := by
  unfold Subject.consumableCount
  split
  · next set _ =>
    exact operand_countWhere (neutral_fixed rfl) (neutral_fixed rfl)
      (neutral_template [.fixed _, .hole _ (neutral_quote set)] rfl)
  · exact operand_fixed rfl

theorem operand_jokerPosition (p : Params) :
    ∀ s ∈ Subject.jokerPosition? p, OperandSubject s := by
  have hstands : ∀ {place : String}, Neutral place →
      Operand ("G.jokers.cards[" ++ place ++ "] == card") := fun h =>
    operand_joined [.fixed _, .enclosed _ h, .fixed _] rfl
  intro s hs
  simp only [Subject.jokerPosition?] at hs
  split at hs
  · next n hn =>
    cases hs
    exact hstands (neutral_position p n hn)
  split at hs
  · cases hs
    exact hstands (neutral_fixed rfl)
  split at hs
  · cases hs
    exact hstands (neutral_fixed rfl)
  · simp at hs

/-- One case for each kind of condition. -/
theorem operand_subject (kind : ConditionKind) (p : Params) (t : Trigger) :
    ∀ s ∈ kind.subject? p t, OperandSubject s := by
  have hplaying : Operand "playing_card" := operand_fixed rfl
  have hfiring := operand_firingCard t
  intro s hs
  cases kind with
  | handType => exact operand_handType p t s hs
  | cardCount =>
    obtain ⟨area, harea, rfl⟩ := Option.map_eq_some_iff.mp hs
    exact operand_joined [.fixed _, .word _ (solid_cardsInScope p t area harea)] rfl
  | suitCount =>
    obtain ⟨raw, -, hs⟩ := Option.bind_eq_some_iff.mp hs
    exact operand_matching p t (operand_suitTest hplaying raw) s hs
  | rankCount =>
    obtain ⟨raw, -, hs⟩ := Option.bind_eq_some_iff.mp hs
    exact operand_matching p t (operand_rankTest hplaying raw) s hs
  | enhancementCount =>
    refine operand_matching p t ?_ s hs
    rintro test ⟨⟩
    exact operand_enhancementTest hplaying.neutral _
  | sealCount =>
    refine operand_matching p t ?_ s hs
    rintro test ⟨⟩
    exact operand_sealTest hplaying _
  | pokerHandBeenPlayed => exact operand_handPlayedBefore p t s hs
  | discardedCardCount =>
    simp only [ConditionKind.subject?] at hs
    split at hs
    · cases hs
      exact operand_fixed rfl
    · simp at hs
  | glassCardDestroyed =>
    simp only [ConditionKind.subject?] at hs
    split at hs
    · cases hs
      exact operand_glassDestroyed
    · simp at hs
  | cardRank =>
    obtain ⟨card, hcard, hs⟩ := Option.bind_eq_some_iff.mp hs
    obtain ⟨raw, -, hs⟩ := Option.bind_eq_some_iff.mp hs
    obtain ⟨test, htest, rfl⟩ := Option.map_eq_some_iff.mp hs
    exact operand_rankTest (hfiring card hcard) raw test htest
  | cardSuit =>
    obtain ⟨card, hcard, hs⟩ := Option.bind_eq_some_iff.mp hs
    obtain ⟨raw, -, hs⟩ := Option.bind_eq_some_iff.mp hs
    obtain ⟨test, htest, rfl⟩ := Option.map_eq_some_iff.mp hs
    exact operand_suitTest (hfiring card hcard) raw test htest
  | cardEnhancement =>
    obtain ⟨card, hcard, rfl⟩ := Option.map_eq_some_iff.mp hs
    exact operand_enhancementTest (hfiring card hcard).neutral _
  | cardSeal =>
    obtain ⟨card, hcard, rfl⟩ := Option.map_eq_some_iff.mp hs
    exact operand_sealTest (hfiring card hcard) _
  | cardEdition =>
    obtain ⟨card, hcard, rfl⟩ := Option.map_eq_some_iff.mp hs
    exact operand_editionTest (hfiring card hcard) _
  | cardIndex => exact operand_cardIndex p t s hs
  | handLevel =>
    obtain ⟨hand, hhand, rfl⟩ := Option.map_eq_some_iff.mp hs
    exact operand_joined [.fixed _, .enclosed _ (neutral_hand p t hand hhand), .fixed _] rfl
  | deckSize =>
    cases hs
    show Operand (ite _ _ _)
    split <;> exact operand_fixed rfl
  | deckCount =>
    cases hs
    exact operand_deckCount p
  | internalVariable => exact operand_internalVariable p s hs
  | blindType => exact operand_blindType p s hs
  | systemDate => exact operand_systemDate p s hs
  | jokerCount =>
    cases hs
    exact operand_jokerCount p
  | specificJoker =>
    obtain ⟨key, -, rfl⟩ := Option.map_eq_some_iff.mp hs
    exact operand_joined [.fixed _, .enclosed _ (neutral_quote _), .fixed _] rfl
  | jokerPosition => exact operand_jokerPosition p s hs
  | consumableCount =>
    cases hs
    exact operand_consumableCount p
  | voucherRedeemed =>
    obtain ⟨key, -, rfl⟩ := Option.map_eq_some_iff.mp hs
    exact operand_joined [.fixed _, .enclosed _ (neutral_quote _), .fixed _] rfl
  | unknown => simp [ConditionKind.subject?] at hs
  | _ =>
    cases hs
    exact operand_fixed rfl

theorem operand_subjectExpr {s : Subject} (hs : OperandSubject s) (p : Params) :
    Operand (s.expr p Registry.builtin) := by
  cases s with
  | test expr => exact hs
  | quantity expr fallback =>
    have hsign : ∀ c : Comparison, Operand c.sign := by
      intro c
      cases c <;> exact operand_fixed rfl
    exact operand_joined [.operand _ hs, .fixed _, .operand _ (hsign _), .fixed _,
      .operand _ (operand_ofOperand _)] rfl

theorem operand_conditionExpr (c : Condition) (t : Trigger) :
    ∀ expr ∈ c.expr? t Registry.builtin, Operand expr := by
  intro expr hexpr
  obtain ⟨s, hs, rfl⟩ := Option.map_eq_some_iff.mp hexpr
  have hexpr := operand_subjectExpr (operand_subject c.kind c.params t s hs) c.params
  dsimp only
  split
  · exact operand_joined [.fixed _, .enclosed _ hexpr.neutral, .fixed _] rfl
  · exact hexpr

theorem neutral_joinFrom {expr : String} (hexpr : Neutral expr) (next : Joiner) {terms : List Term}
    (hterms : ∀ t ∈ terms, Neutral t.expr) : Neutral (Guard.joinFrom expr next terms) := by
  induction terms generalizing expr next with
  | nil => exact hexpr
  | cons t terms ih =>
    have hword : Neutral next.word := by cases next <;> exact neutral_fixed rfl
    have ht : Neutral t.expr := hterms t (by simp)
    refine ih ?_ t.next (fun u hu => hterms u (by simp [hu]))
    exact neutral_template [.fixed _, .hole _ hexpr, .fixed _, .hole _ hword, .fixed _, .hole _ ht,
      .fixed _] rfl

theorem neutral_join {terms : List Term} (hterms : ∀ t ∈ terms, Neutral t.expr) :
    ∀ expr ∈ Guard.join? terms, Neutral expr := by
  cases terms with
  | nil => simp [Guard.join?]
  | cons t terms =>
    rintro expr ⟨⟩
    exact neutral_joinFrom (hterms t (by simp)) t.next (fun u hu => hterms u (by simp [hu]))

theorem neutral_guard (groups : List ConditionGroup) (t : Trigger) :
    ∀ expr ∈ guard? groups t Registry.builtin, Neutral expr := by
  refine neutral_join fun term hterm => ?_
  obtain ⟨g, hg, hterm⟩ := List.mem_filterMap.mp hterm
  obtain ⟨expr, hexpr, rfl⟩ := Option.map_eq_some_iff.mp hterm
  obtain ⟨group, -, rfl⟩ := List.mem_map.mp hg
  refine neutral_join (fun term hterm => ?_) expr hexpr
  obtain ⟨c, -, hterm⟩ := List.mem_filterMap.mp hterm
  obtain ⟨expr, hexpr, rfl⟩ := Option.map_eq_some_iff.mp hterm
  exact (operand_conditionExpr c t expr hexpr).neutral

theorem neutral_eventTest (t : Trigger) (retrigger : Bool) :
    ∀ test ∈ t.eventTest? retrigger, Neutral test := by
  intro test htest
  cases t <;> cases htest
  case cardScored =>
    split <;> exact neutral_fixed rfl
  case cardHeldInHand =>
    split
    · exact neutral_template [.fixed _, .fixed _] rfl
    · exact neutral_fixed rfl
  all_goals exact neutral_fixed rfl

end JokerRules.Brackets
