import JokerRules.Proofs.Brackets.Rules
import JokerRules.Proofs.Compilation

/-! Passive effects and overrides. Their code is neutral, whatever the effects say. -/

namespace JokerRules.Brackets

open Text

def NeutralRequest (r : OverrideRequest) : Prop :=
  ∀ key, Neutral (r.param key)

structure TidyPassive (p : PassiveEffect) : Prop where
  enter : ∀ code ∈ p.enter, Neutral code
  exit : ∀ code ∈ p.exit, Neutral code
  request : ∀ r ∈ p.request, NeutralRequest r

theorem neutral_request (kind : GameFunction) (owner : String) {params : List (String × String)}
    (h : ∀ p ∈ params, Neutral p.2) : NeutralRequest ⟨kind, owner, .ofList params⟩ := by
  intro key
  unfold OverrideRequest.param Keyed.getD
  cases hparam : (Keyed.ofList params).get? key with
  | none => exact neutral_fixed rfl
  | some value => exact h _ (Keyed.mem_of_get?_ofList hparam)

theorem tidy_asking {r : OverrideRequest} (h : NeutralRequest r) : TidyPassive (.asking r) :=
  ⟨by simp [PassiveEffect.asking], by simp [PassiveEffect.asking],
    by simpa [PassiveEffect.asking] using h⟩

theorem TidyQuantity.moved {q : Quantity} (h : TidyQuantity q) (p : Params) {v : String}
    (hv : Neutral v) : TidyPassive (q.moved p v) := by
  have hmove : ∀ op : Operation, Neutral (unlines (q.held.map (·.apply op v))) := by
    intro op
    refine neutral_unlines fun line hline => ?_
    obtain ⟨lever, hlever, rfl⟩ := List.mem_map.mp hline
    exact (h.held lever hlever).apply op hv
  exact ⟨neutral_some (hmove _), neutral_some (hmove _), by simp [Quantity.moved]⟩

theorem tidy_discounting (e : Effect) (owner : String) {v : String} (hv : Neutral v) :
    TidyPassive (e.discounting owner v) := by
  have hrefresh : Neutral Effect.refreshPrices :=
    neutral_event (neutral_unlines (neutral_texts
      [[.fixed _], [.fixed _], [.fixed _], [.fixed _], [.fixed _]] rfl))
  refine ⟨neutral_some hrefresh, neutral_some hrefresh, ?_⟩
  rintro r ⟨⟩
  refine neutral_request _ owner (List.forall_mem_cons.mpr ⟨hv, List.forall_mem_singleton.mpr ?_⟩)
  exact neutral_ite (neutral_fixed rfl) (neutral_fixed rfl)

theorem neutral_combineSuits (e : Effect) (owner : String) :
    ∀ r ∈ e.combineSuits? owner, NeutralRequest r := by
  intro r hr
  rw [Option.mem_def, Effect.combineSuits?] at hr
  obtain ⟨a, -, hr⟩ := Option.bind_eq_some_iff.mp hr
  obtain ⟨b, -, hr⟩ := Option.bind_eq_some_iff.mp hr
  split at hr
  · simp at hr
  · obtain rfl := Option.some.inj hr
    refine neutral_request _ owner (List.forall_mem_cons.mpr ⟨neutral_quote _, ?_⟩)
    exact List.forall_mem_singleton.mpr (neutral_quote _)

theorem neutral_anyRank (raw : String) : ∀ test ∈ Effect.anyRank? raw, Neutral test := by
  intro test htest
  obtain ⟨ids, -, htest⟩ := Option.bind_eq_some_iff.mp htest
  split at htest
  · simp at htest
  · obtain rfl := Option.some.inj htest
    have hor : Neutral " or " := neutral_fixed rfl
    have hids : ∀ text ∈ ids.map fun id => "id == " ++ toString id, Neutral text := by
      intro text htext
      obtain ⟨id, -, rfl⟩ := List.mem_map.mp htext
      exact neutral_template [.fixed _, .word _ (plain_toString_nat id)] rfl
    exact neutral_template [.fixed _, .hole _ (neutral_intercalate hor hids), .fixed _] rfl

theorem neutral_combineRanks (e : Effect) (owner : String) :
    ∀ r ∈ e.combineRanks? owner, NeutralRequest r := by
  intro r hr
  obtain ⟨test, htest, hr⟩ := Option.bind_eq_some_iff.mp hr
  obtain ⟨rank, -, hr⟩ := Option.bind_eq_some_iff.mp hr
  obtain rfl := Option.some.inj hr
  refine neutral_request _ owner (List.forall_mem_cons.mpr ⟨neutral_anyRank _ test htest, ?_⟩)
  exact List.forall_mem_singleton.mpr (plain_toString_nat rank.id).neutral

theorem tidy_heldPlan (e : Effect) (owner : String) :
    ∀ plan ∈ e.heldPlan? owner, TidyPlan TidyPassive plan := by
  intro plan hplan
  rcases Effect.heldPlan_cases hplan with ⟨q, hq, rfl⟩ | ⟨-, rfl⟩ | ⟨-, -, r, rfl, hr⟩
  · exact tidy_reading _ (tidy_quantity hq).stem fun v hv => (tidy_quantity hq).moved e.params hv
  · exact tidy_reading _ (plain_fixed (by decide)) fun v hv => tidy_discounting e owner hv
  · refine tidy_fixed (tidy_asking ?_)
    rcases hr with ⟨function, rfl⟩ | hr | hr
    · exact neutral_request function owner (List.forall_mem_nil _)
    · exact neutral_combineSuits e owner r hr
    · exact neutral_combineRanks e owner r hr

theorem keeps_held (e : Effect) :
    Keeps (e.compileHeld Registry.builtin) fun p => ∀ passive ∈ p, TidyPassive passive := by
  intro d hd
  rw [Effect.compileHeld_run]
  cases hplan : e.heldPlan? d.owner with
  | none => exact ⟨by simp, hd⟩
  | some plan =>
    have hcaptures : PlainCaptures {} := fun name held hheld => nomatch hheld
    obtain ⟨hpassive, hslots, hd⟩ :=
      tidy_carryOut hd e (tidy_heldPlan e d.owner plan hplan) hcaptures
    exact ⟨by simpa using hpassive, hd.storePassive e.id hslots⟩

structure TidyDeck (deck : DeckCode) : Prop where
  addToDeck : ∀ code ∈ deck.addToDeck, Neutral code
  removeFromDeck : ∀ code ∈ deck.removeFromDeck, Neutral code
  requests : ∀ r ∈ deck.requests, NeutralRequest r

theorem keeps_heldEffects (effects : List Effect) :
    Keeps (DeckCode.compileEffects Registry.builtin effects) fun passive =>
      ∀ p ∈ passive, TidyPassive p := by
  induction effects with
  | nil => exact keeps_pure (by simp)
  | cons e effects ih =>
    refine (keeps_held e).bind fun p hp => ih.bind fun ps hps => keeps_pure ?_
    exact List.forall_mem_append.mpr ⟨by simpa using hp, hps⟩

theorem keeps_deck (rules : List Rule) :
    Keeps (DeckCode.compile rules Registry.builtin) TidyDeck := by
  refine (keeps_heldEffects _).bind fun passive hpassive => keeps_pure ⟨?_, ?_, ?_⟩
  · intro code hcode
    obtain ⟨p, hp, hcode⟩ := List.mem_filterMap.mp hcode
    exact (hpassive p hp).enter code hcode
  · intro code hcode
    obtain ⟨p, hp, hcode⟩ := List.mem_filterMap.mp hcode
    exact (hpassive p hp).exit code hcode
  · intro r hr
    obtain ⟨p, hp, hr⟩ := List.mem_filterMap.mp hr
    exact (hpassive p hp).request r hr

theorem neutral_owned (r : OverrideRequest) : Neutral r.owned :=
  neutral_template [.fixed _, .hole _ (neutral_quote r.owner), .fixed _] rfl

theorem neutral_forEachCopy (r : OverrideRequest) {body : String} (h : Neutral body) :
    Neutral (r.forEachCopy body) :=
  neutral_unlines (neutral_texts [[.fixed _, .hole _ (neutral_quote r.owner), .fixed _],
    [.hole _ (h.indent 1)], [.fixed _]] rfl)

namespace NeutralRequest

variable {r : OverrideRequest}

theorem discount (h : NeutralRequest r) : Neutral r.discount := by
  refine neutral_ite ?_ ?_
  · exact neutral_template [.fixed _, .hole _ (h "amount"), .fixed _] rfl
  · exact neutral_template [.fixed _, .hole _ (h "amount"), .fixed _] rfl

theorem suitBranch (h : NeutralRequest r) : Neutral r.suitBranch := by
  have hleft : ∀ {a b : String}, Neutral a → Neutral b →
      Neutral s!"    if (suit == {a} and self.base.suit == {b}) or " := fun ha hb =>
    neutral_template [.fixed _, .hole _ ha, .fixed _, .hole _ hb, .fixed _] rfl
  have hright : ∀ {a b : String}, Neutral a → Neutral b →
      Neutral s!"(suit == {a} and self.base.suit == {b}) then" := fun ha hb =>
    neutral_template [.fixed _, .hole _ ha, .fixed _, .hole _ hb, .fixed _] rfl
  have hleft := hleft (h "suit_1") (h "suit_2")
  have hright := hright (h "suit_2") (h "suit_1")
  exact neutral_unlines (neutral_texts [[.fixed _, .hole _ (neutral_owned r), .fixed _],
    [.hole _ hleft, .hole _ hright], [.fixed _], [.fixed _], [.fixed _]] rfl)

theorem rankBranch (h : NeutralRequest r) : Neutral r.rankBranch :=
  neutral_unlines (neutral_texts
    [[.fixed _, .hole _ (neutral_owned r), .fixed _, .hole _ (h "matches"), .fixed _],
      [.fixed _, .hole _ (h "target")], [.fixed _]] rfl)

end NeutralRequest

theorem plain_variableName {function : String} (h : Plain function) :
    Plain (Override.variableName function) := by
  refine plain_ofList fun c hc => ?_
  obtain ⟨d, hd, rfl⟩ := List.mem_map.mp hc
  rw [lowerAscii, String.toList_ofList] at hd
  obtain ⟨e, he, rfl⟩ := List.mem_map.mp hd
  split
  · rfl
  · rw [classOf_toLower]
    exact plain_iff.mp h e he

theorem neutral_constantOverride (kind : GameFunction) {value : String} (hvalue : Plain value)
    (requests : List OverrideRequest) :
    Neutral (Override.constantOverride kind value requests) := by
  have hfunction : Plain kind.function := by cases kind <;> exact plain_fixed (by decide)
  have hsaved : Plain (Override.variableName kind.function ++ "_ref") :=
    (plain_variableName hfunction).append (plain_fixed (by decide))
  have hor : Neutral " or " := neutral_fixed rfl
  have howned : ∀ test ∈ requests.map (·.owned), Neutral test := by
    intro test htest
    obtain ⟨r, -, rfl⟩ := List.mem_map.mp htest
    exact neutral_owned r
  exact neutral_unlines (neutral_texts [[.fixed _, .word _ hsaved, .fixed _, .word _ hfunction],
    [.fixed _, .word _ hfunction, .fixed _],
    [.fixed _, .hole _ (neutral_intercalate hor howned), .fixed _], [.fixed _, .word _ hvalue],
    [.fixed _], [.fixed _, .word _ hsaved, .fixed _], [.fixed _]] rfl)

theorem neutral_branches {requests : List OverrideRequest} {branch : OverrideRequest → String}
    (h : ∀ r ∈ requests, Neutral (branch r)) :
    Neutral (indent 2 (unlines (requests.map branch))) := by
  refine (neutral_unlines fun text htext => ?_).indent 2
  obtain ⟨r, hr, rfl⟩ := List.mem_map.mp htext
  exact h r hr

theorem neutral_override (kind : GameFunction) {requests : List OverrideRequest}
    (h : ∀ r ∈ requests, NeutralRequest r) : Neutral (Override.override kind requests) := by
  cases kind with
  | setCost =>
    have hbranches := neutral_branches fun r hr => neutral_forEachCopy r (h r hr).discount
    simp only [Override.override, Override.setCost]
    exact neutral_unlines (neutral_texts [[.fixed _], [.fixed _], [.fixed _], [.fixed _],
      [.hole _ hbranches], [.fixed _, .fixed _], [.fixed _], [.fixed _], [.fixed _]] rfl)
  | fourFingers => exact neutral_constantOverride _ (plain_fixed (by decide)) requests
  | shortcut | alwaysScores | showman =>
    exact neutral_constantOverride _ (plain_fixed (by decide)) requests
  | isSuit =>
    have hbranches := neutral_branches fun r hr => (h r hr).suitBranch
    simp only [Override.override, Override.isSuit]
    exact neutral_unlines (neutral_texts [[.fixed _], [.fixed _], [.fixed _], [.fixed _],
      [.hole _ hbranches], [.fixed _], [.fixed _], [.fixed _]] rfl)
  | getId =>
    have hbranches := neutral_branches fun r hr => (h r hr).rankBranch
    simp only [Override.override, Override.getId]
    exact neutral_unlines (neutral_texts [[.fixed _], [.fixed _], [.fixed _], [.fixed _],
      [.hole _ hbranches], [.fixed _], [.fixed _], [.fixed _]] rfl)

theorem neutral_overrides {requests : List OverrideRequest}
    (h : ∀ r ∈ requests, NeutralRequest r) :
    ∀ code ∈ Override.overrides requests, Neutral code := by
  intro code hcode
  obtain ⟨kind, -, rfl⟩ := List.mem_map.mp hcode
  exact neutral_override kind fun r hr =>
    h r (List.mem_filter.mp (List.mem_eraseDups.mp hr)).1

end JokerRules.Brackets
