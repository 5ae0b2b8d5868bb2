import JokerRules.Proofs.Captures
import JokerRules.Proofs.ContextTexts
import JokerRules.Proofs.EncodedFields
import JokerRules.Proofs.HeldInverse
import JokerRules.Proofs.LegalNames

/-! Amounts, statements and parameters outside any event. A reading of the game's state that counts
the cards of the scoring hand uses the event, and the code around an amount uses the event as the
amount does. -/

namespace JokerRules.HeldScope

open Text Brackets Tokens ContextUses

/-- The value that counts the cards of the scoring hand. -/
def CountsScoredHand (value : Value) : Prop :=
  ∃ raw multiplier offset, value = .str raw ∧
    Encoding.parse raw = .ok (.gameState "scoring_hand_size" multiplier offset)

theorem uses_reading : ∀ row ∈ Registry.builtinTable, Closed row.2.1 ∧
    ∀ u, u ∈ uses row.2.1 ↔ u = some "scoring_hand" ∧ row.1 = "scoring_hand_size" := by
  have hother : ∀ {id : String} {cs : List Char}, id ≠ "scoring_hand_size" →
      templateUses? [(.fixed cs : Part Closed)] = some [] → Closed (String.ofList cs) ∧
        ∀ u, u ∈ uses (String.ofList cs) ↔ u = some "scoring_hand" ∧ id = "scoring_hand_size" := by
    intro id cs hid hcs
    obtain ⟨hclosed, huses⟩ := uses_fixed hcs
    exact ⟨hclosed, by simp [huses, hid]⟩
  have hscored : Closed "#(context.scoring_hand or \x7b\x7d)" ∧
      ∀ u, u ∈ uses "#(context.scoring_hand or \x7b\x7d)" ↔ u ∈ [some "scoring_hand"] :=
    uses_fixed rfl
  simp only [Registry.builtinTable, List.forall_mem_cons]
  refine ⟨?_, ?_, ?_, ?_, ?_, ?_, ?_, ?_, ?_, ?_, ?_, ?_, ?_, ?_, ?_, ?_, ?_, ?_, ?_, ?_,
    ⟨hscored.1, by simpa using hscored.2⟩, by simp⟩
  all_goals exact hother (by decide) rfl

theorem get?_scoring_hand_size : (Registry.builtin.get? "scoring_hand_size").isSome = true := by
  decide +kernel

variable {hint : String}

theorem uses_ofGameState (key : String) (multiplier offset : Binary64) :
    Closed (Resolved.ofGameState key multiplier offset .builtin).amount.expr ∧
      ∀ u, u ∈ uses (Resolved.ofGameState key multiplier offset .builtin).amount.expr ↔
        u = some "scoring_hand" ∧ key = "scoring_hand_size" := by
  cases hvar : Registry.builtin.get? key with
  | none =>
    have hkey : key ≠ "scoring_hand_size" := by
      rintro rfl
      have hsome := get?_scoring_hand_size
      rw [hvar] at hsome
      cases hsome
    have hexpr : (Resolved.ofGameState key multiplier offset .builtin).amount.expr = "0" := by
      simp only [Resolved.ofGameState, hvar]
      rfl
    have hzero : Closed "0" ∧ ∀ u, u ∈ uses "0" ↔ u ∈ [] := uses_fixed rfl
    rw [hexpr]
    exact ⟨hzero.1, fun u => by simp [hzero.2, hkey]⟩
  | some var =>
    have hname := SlotNames.legal_offsetName hvar
    obtain ⟨hclosed, huses⟩ : Closed var.template ∧
        ∀ u, u ∈ uses var.template ↔ u = some "scoring_hand" ∧ key = "scoring_hand_size" := by
      obtain ⟨row, hrow, rfl, rfl⟩ := row_of_get?_builtin hvar
      exact uses_reading row hrow
    have hexpr : (Resolved.ofGameState key multiplier offset .builtin).amount.expr =
        Amount.affine var.template multiplier offset (Slot.read (offsetName var.label)) := by
      simp only [Resolved.ofGameState, hvar]
      split <;> rfl
    have hechoes := echoes_affine hclosed
      (within_read hname.nonempty hname.chars) multiplier offset
    rw [hexpr]
    exact ⟨hechoes.closed, fun u => by rw [hechoes.uses_iff, huses]⟩

/-- Whatever else a value is, its amount does not use the event. -/
theorem within_ofValue {A : Use → Prop} {value : Value} (effectId : String) (hne : hint ≠ "")
    (hhint : ∀ c ∈ hint.toList, isNameChar c = true)
    (h : ∀ raw, value = .str raw → ∀ key multiplier offset,
      Encoding.parse raw ≠ .ok (.gameState key multiplier offset)) :
    Within A (Resolved.ofValue value effectId hint .builtin {}).amount.expr := by
  have hbound : ∀ ending : String, ending.toList.all isNameChar = true →
      Within A (Slot.read (hint ++ ending)) := by
    intro ending hending
    refine within_read (by simp [hne]) fun c hc => ?_
    rw [String.toList_append] at hc
    exact (List.mem_append.mp hc).elim (hhint c) (List.all_eq_true.mp hending c)
  have hslot : Within A (Slot.read hint) := within_read hne hhint
  unfold Resolved.ofValue
  split
  · next raw =>
    split
    · split
      · next key multiplier offset hparse => exact absurd hparse (h raw rfl key multiplier offset)
      · exact within_drawn _ (hbound "_min" (by decide)) (hbound "_max" (by decide))
      · exact within_fixed rfl
    · split
      · exact hslot
      · simp only [Resolved.ofReference]
        split
        · exact within_fixed rfl
        · next hname => exact within_read hname (isNameChar_identifier raw)
  · exact hslot

theorem uses_ofValue (value : Value) (effectId : String) (hne : hint ≠ "")
    (hhint : ∀ c ∈ hint.toList, isNameChar c = true) :
    Closed (Resolved.ofValue value effectId hint .builtin {}).amount.expr ∧
      ∀ u, u ∈ uses (Resolved.ofValue value effectId hint .builtin {}).amount.expr ↔
        u = some "scoring_hand" ∧ CountsScoredHand value := by
  by_cases hstate : ∃ raw key multiplier offset, value = .str raw ∧
      Encoding.parse raw = .ok (.gameState key multiplier offset)
  · obtain ⟨raw, key, multiplier, offset, rfl, hparse⟩ := hstate
    have hcounts : CountsScoredHand (.str raw) ↔ key = "scoring_hand_size" := by
      constructor
      · rintro ⟨raw', m, o, hraw, hparse'⟩
        obtain rfl := Value.str.inj hraw
        exact (Encoding.gameState.inj (Except.ok.inj (hparse.symm.trans hparse'))).1
      · rintro rfl
        exact ⟨raw, multiplier, offset, rfl, hparse⟩
    have hvalue : Resolved.ofValue (.str raw) effectId hint .builtin {} =
        Resolved.ofGameState key multiplier offset .builtin := by
      simp only [Resolved.ofValue, Encoding.isMarked_of_parse hparse, if_true, hparse]
    rw [hvalue, hcounts]
    exact uses_ofGameState key multiplier offset
  · have hwithin : Within (fun _ => False)
        (Resolved.ofValue value effectId hint .builtin {}).amount.expr :=
      within_ofValue effectId hne hhint fun raw hraw key multiplier offset hparse =>
        hstate ⟨raw, key, multiplier, offset, hraw, hparse⟩
    have hcounts : ¬CountsScoredHand value := by
      rintro ⟨raw, multiplier, offset, hraw, hparse⟩
      exact hstate ⟨raw, _, multiplier, offset, hraw, hparse⟩
    exact ⟨hwithin.closed, fun u =>
      ⟨fun hu => (hwithin.allowed u hu).elim, fun hu => (hcounts hu.2).elim⟩⟩

/-- What stands before the amount: the place that is written or the function that is called. -/
def leverHead : Lever → String
  | .stored target => target
  | .eased function _ => function

theorem within_leverHead {A : Use → Prop} : ∀ q ∈ Quantity.holdable, ∀ lever ∈ q.held,
    Within A (leverHead lever) := by
  intro q hq
  obtain ⟨kind, -, hkind⟩ := List.mem_filterMap.mp hq
  unfold Quantity.ofKind? at hkind
  split at hkind
  case h_10 => cases hkind
  case h_1 | h_2 =>
    obtain rfl := Option.some.inj hkind
    exact List.forall_mem_cons.mpr ⟨within_fixed rfl, List.forall_mem_singleton.mpr (within_fixed rfl)⟩
  all_goals
    obtain rfl := Option.some.inj hkind
    exact List.forall_mem_singleton.mpr (within_fixed rfl)

theorem echoes_parenthesised {amount : String} (h : Closed amount) :
    Echoes amount (parenthesised amount) := by
  simp only [parenthesised]
  split
  · exact echoes_template [.fixed _, .hole _ h.echoes.within, .fixed _] rfl
      ⟨amount, by simp [holes], h.echoes⟩
  · exact h.echoes

theorem echoes_apply {amount : String} (h : Closed amount) {lever : Lever}
    (hbefore : Within (· ∈ uses amount) (leverHead lever)) (way : Direction) :
    Echoes amount (lever.apply way.operation amount) := by
  have hamount := echoes_parenthesised h
  have hinner := hamount.within
  cases lever with
  | stored target =>
    have hassigned : ∀ {sum : String}, Echoes amount sum → Echoes amount (target ++ " = " ++ sum) :=
      fun hsum => echoes_template [.hole _ hbefore, .fixed _, .hole _ hsum.within] rfl
        ⟨_, by simp [holes], hsum⟩
    cases way <;>
      exact hassigned (echoes_template [.hole _ hbefore, .fixed _, .hole _ hinner] rfl
        ⟨_, by simp [holes], hamount⟩)
  | eased function current =>
    cases way with
    | up =>
      exact echoes_template [.hole _ hbefore, .fixed _, .hole _ hinner, .fixed _] rfl
        ⟨_, by simp [holes], hamount⟩
    | down =>
      have hnegated : Echoes amount ("-" ++ parenthesised amount) :=
        echoes_template [.fixed _, .hole _ hinner] rfl ⟨_, by simp [holes], hamount⟩
      exact echoes_template [.hole _ hbefore, .fixed _, .hole _ hnegated.within, .fixed _] rfl
        ⟨_, by simp [holes], hnegated⟩

theorem echoes_move {q : Quantity} (hq : q ∈ Quantity.holdable) (way : Direction) {amount : String}
    (h : Closed amount) : Echoes amount (q.move way amount) := by
  refine echoes_unlines (by simpa using Quantity.held_ne_nil q hq) fun text htext => ?_
  obtain ⟨lever, hlever, rfl⟩ := List.mem_map.mp htext
  exact echoes_apply h (within_leverHead q hq lever hlever) way

theorem within_event {A : Use → Prop} {code : String} (h : Within A code) (hcode : Neutral code) :
    Within A (event code) := by
  have hbody : Within A ("func = " ++ closure code) := by
    have hclosure : Within A (closure code) :=
      within_template [.fixed _, .hole _ (h.indent hcode 1), .fixed _] rfl
    exact within_template [.fixed _, .hole _ hclosure] rfl
  have hneutral : Neutral ("func = " ++ closure code) :=
    (neutral_fixed rfl).append (neutral_closure hcode)
  exact within_template [.fixed _, .hole _ (hbody.indent hneutral 1), .fixed _] rfl

theorem uses_refreshPrices : uses Effect.refreshPrices = [] := by
  have hevent : Within (fun _ => False) Effect.refreshPrices := by
    refine within_event ?_ (neutral_unlines (neutral_texts
      [[.fixed _], [.fixed _], [.fixed _], [.fixed _], [.fixed _]] rfl))
    exact within_template [.fixed _, .fixed _, .fixed _, .fixed _, .fixed _, .fixed _, .fixed _,
      .fixed _, .fixed _] rfl
  exact List.eq_nil_iff_forall_not_mem.mpr hevent.allowed

theorem within_anyRank {A : Use → Prop} (raw : String) :
    ∀ test ∈ Effect.anyRank? raw, Within A test := by
  intro test htest
  obtain ⟨ids, -, htest⟩ := Option.bind_eq_some_iff.mp htest
  have hone : ∀ id : Nat, Within A ("id == " ++ toString id) := fun id =>
    within_template [.fixed _, .hole _ (within_toString_nat id)] rfl
  have hjoined : ids ≠ [] →
      Within A (" or ".intercalate (ids.map fun id => "id == " ++ toString id)) := by
    intro hne
    clear htest
    induction ids with
    | nil => exact absurd rfl hne
    | cons id ids ih =>
      cases ids with
      | nil => simpa using hone id
      | cons next ids =>
        have hrest := ih (by simp)
        rw [List.map_cons, String.intercalate_cons_of_ne_nil (by simp)]
        exact within_template [.hole _ (hone id), .fixed _, .hole _ hrest] rfl
  split at htest
  · cases htest
  · next hne =>
    cases htest
    exact within_template [.fixed _, .hole _ (hjoined (by simpa using hne)), .fixed _] rfl

/-- The expressions among the parameters of an override. -/
def requestTexts (r : OverrideRequest) : List String :=
  r.params.entries.map (·.2)

theorem uses_params {kind : GameFunction} {owner : String} {bindings : List (String × String)}
    (h : ∀ b ∈ bindings, Within (fun _ => False) b.2) :
    ∀ text ∈ requestTexts ⟨kind, owner, .ofList bindings⟩, uses text = [] := by
  intro text htext
  obtain ⟨entry, hentry, rfl⟩ := List.mem_map.mp htext
  exact List.eq_nil_iff_forall_not_mem.mpr (h entry (Keyed.mem_of_mem_ofList hentry)).allowed

theorem uses_combineSuits {e : Effect} {owner : String} {r : OverrideRequest}
    (h : e.combineSuits? owner = some r) : ∀ text ∈ requestTexts r, uses text = [] := by
  unfold Effect.combineSuits? at h
  obtain ⟨a, -, h⟩ := Option.bind_eq_some_iff.mp h
  obtain ⟨b, -, h⟩ := Option.bind_eq_some_iff.mp h
  split at h
  · cases h
  · rw [← Option.some.inj h]
    refine uses_params ?_
    simpa using ⟨within_quote a.name, within_quote b.name⟩

theorem uses_combineRanks {e : Effect} {owner : String} {r : OverrideRequest}
    (h : e.combineRanks? owner = some r) : ∀ text ∈ requestTexts r, uses text = [] := by
  unfold Effect.combineRanks? at h
  obtain ⟨ranks, hranks, h⟩ := Option.bind_eq_some_iff.mp h
  obtain ⟨target, -, h⟩ := Option.bind_eq_some_iff.mp h
  rw [← Option.some.inj h]
  refine uses_params ?_
  simpa using ⟨within_anyRank _ ranks hranks, within_toString_nat target.id⟩

end JokerRules.HeldScope
