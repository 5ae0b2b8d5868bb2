import JokerRules.Proofs.Captures
import JokerRules.Proofs.EncodedFields
import JokerRules.Proofs.LegalNames
import JokerRules.Proofs.Occurrences

/-! Code around an amount that is drawn between two bounds. The amount is a call, and operations,
messages and outputs have the call as often as they have the amount. -/

namespace JokerRules.DrawnOnce

open Text Brackets Tokens Occurrences SlotNames

/-- Kinds whose own status message shows the amount. -/
def showsAmount : EffectKind → Bool
  | .setDollars | .drawCards | .editBlindSize | .setAnte | .modifyProbability | .editHands
  | .editDiscards | .editHandSize | .editJokerSlots | .editConsumableSlots | .editShopSlots => true
  | _ => false

/-- Whether the effect applies the amount in a loop. -/
def appliesInLoop (e : Effect) : Bool :=
  match e.kind with
  | .modifyProbability => true
  | .setSellValue => ["all_jokers", "all_consumables"].contains (e.params.textOr "target" "self")
  | _ => false

structure IsDraw (call : String) (rest : List Token) : Prop where
  neutral : Neutral call
  tokens_eq : tokens call = pseudorandom :: rest
  calm : calm false rest = true

theorem IsDraw.draws {call : String} {rest : List Token} (h : IsDraw call rest) :
    Draws rest call oneDraw := by
  refine ⟨complete_of_neutral h.neutral, ?_⟩
  rw [h.tokens_eq]
  exact runs_call h.calm

theorem isDraw_drawn (seed : String) {low high : String} (hlow : Legal low) (hhigh : Legal high) :
    ∃ rest, IsDraw (Amount.drawn seed (Slot.read low) (Slot.read high)).expr rest := by
  have hread : ∀ {name : String}, Legal name → Neutral (Slot.read name) :=
    fun h => (plain_read (plain_name h.chars)).neutral
  have hseed : Complete (singleQuoted seed) := complete_of_neutral (neutral_singleQuoted seed)
  have hparts : tokens (Amount.drawn seed (Slot.read low) (Slot.read high)).expr = _ :=
    tokens_template (P := Complete) (fun _ h => h) [.fixed _, .hole _ hseed, .fixed _,
      .hole _ (complete_read hlow.chars), .fixed _, .hole _ (complete_read hhigh.chars), .fixed _] rfl
  simp only [List.flatMap_cons, List.flatMap_nil, tokens_singleQuoted,
    tokens_read hlow.nonempty hlow.chars, tokens_read hhigh.nonempty hhigh.chars] at hparts
  have hcomma : calm false [[',']] = true := rfl
  have hclosing : calm false [[')']] = true := rfl
  exact ⟨[['(']] ++ ([(singleQuoted seed).toList] ++ ([[',']] ++ (slotPath ++ [low.toList] ++
      ([[',']] ++ (slotPath ++ [high.toList] ++ [[')']]))))),
    (operand_drawn seed (hread hlow) (hread hhigh)).neutral, hparts,
    calm_append rfl (calm_append (calm_quoteWith .single seed) (calm_append hcomma
      (calm_append (calm_slotPath _) (calm_append hcomma (calm_append (calm_slotPath _) hclosing)))))⟩

section Operations

variable {rest : List Token} {target amount : String}

theorem draws_parenthesised (h : Draws rest amount oneDraw) :
    Draws rest (parenthesised amount) oneDraw := by
  simp only [parenthesised]
  split
  · exact draws_template [.fixed _, .hole _ ⟨_, h⟩, .fixed _] rfl
  · exact h

theorem draws_assignment (op : Operation) (htarget : Draws rest target noDraw)
    (h : Draws rest amount oneDraw) : Draws rest (op.assignment target amount) oneDraw := by
  have h := draws_parenthesised h
  refine draws_template [.hole _ ⟨_, htarget⟩, .fixed _, .hole _ ⟨oneDraw, ?_⟩] rfl
  cases op with
  | set => exact h
  | _ => exact draws_template [.hole _ ⟨_, htarget⟩, .fixed _, .hole _ ⟨_, h⟩] rfl

theorem draws_change (op : Operation) (htarget : Draws rest target noDraw)
    (h : Draws rest amount oneDraw) : Draws rest (op.change target amount) oneDraw := by
  have h := draws_parenthesised h
  cases op with
  | add => exact h
  | subtract => exact draws_template [.fixed _, .hole _ ⟨_, h⟩] rfl
  | set => exact draws_template [.hole _ ⟨_, h⟩, .fixed _, .hole _ ⟨_, htarget⟩] rfl
  | multiply =>
    exact draws_template [.hole _ ⟨_, htarget⟩, .fixed _, .hole _ ⟨_, h⟩, .fixed _] rfl
  | divide =>
    exact draws_template
      [.hole _ ⟨_, htarget⟩, .fixed _, .hole _ ⟨_, h⟩, .fixed _, .hole _ ⟨_, htarget⟩] rfl

theorem quote_eq {s : String} (h : ∀ c ∈ s.toList, escapeChar '"' c = [c]) :
    quote s = "\"" ++ s ++ "\"" := by
  have hescaped : s.toList.flatMap (escapeChar '"') = s.toList := by
    rw [List.flatMap_congr h, List.flatMap_singleton']
  rw [← String.toList_inj, quote, quoteWith, String.toList_ofList, hescaped]
  simp

theorem escapeChar_sign (op : Operation) : ∀ c ∈ op.sign.toList, escapeChar '"' c = [c] := by
  cases op <;> simp [Operation.sign, escapeChar]

theorem dollarMessage_eq (op : Operation) (amount : String) :
    "\"" ++ op.sign ++ "$\"..tostring(" ++ amount ++ ")" =
      quote (op.sign ++ "$") ++ "..tostring(" ++ amount ++ ")" := by
  have hquote : quote (op.sign ++ "$") = "\"" ++ (op.sign ++ "$") ++ "\"" := by
    refine quote_eq ?_
    simpa [or_imp, forall_and] using ⟨escapeChar_sign op, by decide⟩
  rw [hquote, ← String.toList_inj]
  simp

theorem draws_changeMessage (op : Operation) (h : Draws rest amount oneDraw) {unit : List Char}
    (hne : unit ≠ []) (hunit : (unit.all fun c => escapeChar '"' c == [c]) = true) :
    Draws rest (changeMessage op amount (String.ofList unit)) oneDraw := by
  have hsign := quote_eq (escapeChar_sign op)
  have hunit : quote (" " ++ String.ofList unit) = "\"" ++ (" " ++ String.ofList unit) ++ "\"" := by
    refine quote_eq ?_
    simpa using ⟨by decide, fun c hc => beq_iff_eq.mp (List.all_eq_true.mp hunit c hc)⟩
  have htext : changeMessage op amount (String.ofList unit) =
      quote op.sign ++ "..tostring(" ++ amount ++ ").." ++ quote (" " ++ String.ofList unit) := by
    rw [hsign, hunit, ← String.toList_inj]
    simp [changeMessage, hne]
  rw [htext]
  exact draws_template [.hole _ ⟨_, draws_quoteWith .double _⟩, .fixed _, .hole _ ⟨_, h⟩, .fixed _,
    .hole _ ⟨_, draws_quoteWith .double _⟩] rfl

end Operations

section Quiet

variable {rest : List Token}

/-- A card's bonus is read as a field, whatever its name. -/
theorem draws_bonus {field : String} (h : Legal field) :
    Draws rest (Effect.triggered ++ ".ability." ++ field) noDraw := by
  have hcomplete := complete_name h.chars
  have htokens : tokens (Effect.triggered ++ ".ability." ++ field) = _ :=
    tokens_template (P := Complete) (fun _ h => h) [.fixed _, .fixed _, .hole _ hcomplete] rfl
  refine ⟨complete_template (P := Complete) (fun _ h => h)
    [.fixed _, .fixed _, .hole _ hcomplete] rfl, ?_⟩
  rw [htokens]
  simp only [List.flatMap_cons, List.flatMap_nil, tokens_name h.nonempty h.chars]
  exact runs_calm rfl

theorem unlines_nested (a b c d e f g : String) : unlines [a, b, c, d, e, f, g] =
    unlines [a, unlines [b, unlines [c, d, e], f], g] := by
  simp only [unlines, String.intercalate_cons_cons, String.intercalate_singleton, String.append_assoc]

/-- The loop that collects the visible hands, and the choice among them. -/
theorem draws_chooseHand {pool chosen choice : String} (hpool : Draws rest pool noDraw)
    (hchosen : Draws rest chosen noDraw) (hchoice : Draws rest choice noDraw) :
    Draws rest (unlines [
      "local " ++ pool ++ " = \x7b\x7d",
      "for hand_key, hand in pairs(G.GAME.hands) do",
      "    if hand.visible then",
      s!"        {pool}[#{pool} + 1] = hand_key",
      "    end",
      "end",
      s!"local {chosen} = {choice}"]) noDraw := by
  have hadd : Draws rest s!"        {pool}[#{pool} + 1] = hand_key" noDraw :=
    draws_template [.fixed _, .hole _ ⟨_, hpool⟩, .fixed _, .hole _ ⟨_, hpool⟩, .fixed _] rfl
  have hloop : Draws rest (unlines ["for hand_key, hand in pairs(G.GAME.hands) do",
      unlines ["    if hand.visible then", _, "    end"], "end"]) noDraw :=
    draws_block .loop [_] rfl (draws_block .other [_] rfl hadd rfl) rfl
  rw [unlines_nested]
  exact draws_lines [[.fixed _, .hole _ ⟨_, hpool⟩, .fixed _], [.hole _ ⟨_, hloop⟩],
    [.fixed _, .hole _ ⟨_, hchosen⟩, .fixed _, .hole _ ⟨_, hchoice⟩]] rfl

theorem gives_quietName {stem : String} (h : ∀ c ∈ stem.toList, isNameChar c = true)
    (hmark : '_' ∈ stem.toList) : Gives (fresh stem) fun name => Draws rest name noDraw := by
  intro names
  refine draws_name (Statement.isNameChar_nth h _) ?_
  obtain ⟨digits, -, htext⟩ := Names.nth_eq_append stem (names.getD stem 0 + 1)
  exact htext ▸ List.mem_append_left digits hmark

end Quiet

section Outputs

/-- The texts of an output that run when the rule fires, apart from its message. -/
def codeTexts (o : Output) : List String :=
  o.hoisted ++ match o.body with
    | .fields entries => entries
    | .closure code => [code]
    | .messageOnly => []

/-- For each draw of an output whether it is in a loop. -/
def drawsOf (call : String) (o : Output) : List Bool :=
  (codeTexts o ++ o.message.toList).flatMap (occurrences call)

/-- The code draws once, and the message too if the amount is shown. -/
structure DrawsAs (call : String) (inLoop shown : Bool) (o : Output) : Prop where
  code : (codeTexts o).flatMap (occurrences call) = [inLoop]
  message : o.message.toList.flatMap (occurrences call) = if shown then [false] else []

variable {call : String} {rest : List Token} {inLoop shown : Bool} {o : Output}

theorem drawsOf_eq (h : DrawsAs call inLoop shown o) :
    drawsOf call o = inLoop :: if shown then [false] else [] := by
  rw [drawsOf, List.flatMap_append, h.code, h.message, List.singleton_append]

theorem occurrences_single (hcall : IsDraw call rest) {text : String} {f : List Block → List Bool}
    (h : Draws rest text f) : [text].flatMap (occurrences call) = f [] := by
  rw [List.flatMap_singleton, occurrences_eq hcall.tokens_eq h]

/-- A statement before the table that does not draw, and a body that does. -/
theorem drawsAs_hoisted {statement code message colour : String} (hcall : IsDraw call rest)
    (hstatement : Draws rest statement noDraw) (hcode : Draws rest code oneDraw)
    (hmessage : Draws rest message noDraw) : DrawsAs call false false
      { body := .closure code, message := some message, colour, hoisted := [statement] } := by
  refine ⟨?_, occurrences_single hcall hmessage⟩
  rw [codeTexts, List.flatMap_append, occurrences_single hcall hstatement]
  exact occurrences_single hcall hcode

/-- An authored message takes the place of one that draws. -/
theorem DrawsAs.deliver (hcall : IsDraw call rest) (h : DrawsAs call inLoop shown o) (e : Effect)
    (slots : List Slot) :
    DrawsAs call inLoop (shown && e.ownMessage?.isNone) (e.deliver slots o) := by
  unfold Effect.deliver
  cases e.ownMessage? with
  | none => simpa using ⟨h.code, h.message⟩
  | some text =>
    obtain ⟨body, message, colour, hoisted, newSlots⟩ := o
    have hquote : occurrences call (quote text) = [] :=
      occurrences_eq hcall.tokens_eq (draws_quoteWith .double text)
    have hentry : occurrences call "remove_default_message = true" = [] :=
      occurrences_eq hcall.tokens_eq (draws_fixed rfl)
    have hcode := h.code
    refine ⟨?_, by simpa [Output.announce] using hquote⟩
    cases body <;> simpa [Output.announce, codeTexts, hentry] using hcode

end Outputs

end JokerRules.DrawnOnce
