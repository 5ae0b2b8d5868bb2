import JokerRules.Override
import JokerRules.Proofs.QuietTexts
import Mathlib.Data.List.Basic

/-! The overrides of a mod. A function is overridden once, however many items ask for it, and every
distinct request has one branch in the override, in the order in which the requests come up. -/

namespace JokerRules

open Text

section Firsts

variable {α : Type} [BEq α] [LawfulBEq α]

theorem idxOf_filter_lt_iff {p : α → Bool} {a b : α} (ha : p a) (hb : p b) (l : List α) :
    (l.filter p).idxOf a < (l.filter p).idxOf b ↔ l.idxOf a < l.idxOf b := by
  induction l with
  | nil => rfl
  | cons x l ih =>
    by_cases hxa : x = a
    · subst x
      by_cases hab : a = b
      · simp [hab]
      · simp [ha, List.idxOf_cons_ne _ hab]
    · by_cases hxb : x = b
      · subst x
        simp [hb]
      · cases hx : p x <;> simp [hx, List.idxOf_cons_ne _ hxa, List.idxOf_cons_ne _ hxb, ih]

theorem pairwise_idxOf_eraseDups (l : List α) :
    l.eraseDups.Pairwise fun a b => l.idxOf a < l.idxOf b := by
  match l with
  | [] => exact .nil
  | a :: l =>
    rw [List.eraseDups_cons, List.pairwise_cons]
    have hother : ∀ b ∈ (l.filter fun b => !b == a).eraseDups, a ≠ b := by
      intro b hb
      have hba := (List.mem_filter.mp (List.mem_eraseDups.mp hb)).2
      exact Ne.symm (by simpa using hba)
    constructor
    · intro b hb
      simp [List.idxOf_cons_ne _ (hother b hb)]
    · refine (pairwise_idxOf_eraseDups (l.filter fun b => !b == a)).imp_of_mem ?_
      intro b c hb hc hlt
      rw [List.idxOf_cons_ne _ (hother b hb), List.idxOf_cons_ne _ (hother c hc)]
      have hlt' := (idxOf_filter_lt_iff (by simpa using (hother b hb).symm)
        (by simpa using (hother c hc).symm) l).mp hlt
      omega
termination_by l.length
decreasing_by exact Nat.lt_succ_of_le (List.length_filter_le ..)

theorem eraseDups_repeat {a : α} {front : List α} (h : a ∈ front) (back : List α) :
    (front ++ a :: back).eraseDups = (front ++ back).eraseDups := by
  rw [List.eraseDups_append, List.eraseDups_append, List.cons_removeAll, if_neg (by simpa using h)]

theorem eraseDups_append_self (l : List α) : (l ++ l).eraseDups = l.eraseDups := by
  have hnone : l.removeAll l = [] := by simp [List.removeAll]
  rw [List.eraseDups_append, hnone, List.eraseDups_nil, List.append_nil]

end Firsts

section Lines

theorem extendFirst_append (c : Char) {xs : List (List Char)} (hxs : xs ≠ []) (ys : List (List Char)) :
    extendFirst c (xs ++ ys) = extendFirst c xs ++ ys := by
  cases xs with
  | nil => exact absurd rfl hxs
  | cons x xs => rfl

/-- A line feed ends the lines before it, unless it would take a carriage return along. -/
theorem lines_append {last : Char} (hfeed : last ≠ '\n') (hreturn : last ≠ '\r')
    (front back : List Char) :
    lines (front ++ last :: '\n' :: back) = lines (front ++ [last]) ++ lines back := by
  induction front using lines.induct with
  | case1 =>
    rw [List.nil_append, List.nil_append, lines, lines, lines, lines]
    all_goals simp_all [extendFirst]
  | case2 cs ih => simp [lines, ih]
  | case3 cs ih => simp [lines, ih]
  | case4 c cs hc hcs ih =>
    have hstep : ∀ rest,
        lines (c :: (cs ++ last :: rest)) = extendFirst c (lines (cs ++ last :: rest)) := by
      refine fun rest => lines.eq_4 c _ hc ?_
      rintro ds hreturn' heq
      cases cs with
      | nil => exact hfeed (List.cons.inj heq).1
      | cons d cs => exact hcs cs hreturn' (by rw [(List.cons.inj heq).1])
    have hne : lines (cs ++ [last]) ≠ [] := fun h => by simpa using lines_eq_nil h
    rw [List.cons_append, List.cons_append, hstep, hstep, ih, extendFirst_append c hne]

/-- The text has a last line, which no line feed ends. -/
def EndsInside (text : String) : Prop :=
  ∃ front last, text.toList = front ++ [last] ∧ last ≠ '\n' ∧ last ≠ '\r'

theorem endsInside_append (front : String) {text : String} (h : EndsInside text) :
    EndsInside (front ++ text) := by
  obtain ⟨cs, last, htext, hlast⟩ := h
  exact ⟨front.toList ++ cs, last, by simp [htext], hlast⟩

theorem EndsInside.ne_empty {text : String} (h : EndsInside text) : text ≠ "" := by
  rintro rfl
  obtain ⟨front, last, htext, -⟩ := h
  simp at htext

theorem unlines_append {xs ys : List String} (hxs : xs ≠ []) (hys : ys ≠ []) :
    unlines (xs ++ ys) = unlines xs ++ "\n" ++ unlines ys := by
  induction xs with
  | nil => exact absurd rfl hxs
  | cons x xs ih =>
    cases xs with
    | nil =>
      obtain ⟨y, ys, rfl⟩ := List.exists_cons_of_ne_nil hys
      simp [unlines, String.intercalate_cons_cons]
    | cons x' xs =>
      have htail := ih (List.cons_ne_nil x' xs)
      simp only [unlines, List.cons_append, String.intercalate_cons_cons,
        String.append_assoc] at htail ⊢
      rw [htail]

theorem endsInside_unlines (front : List String) {last : String} (h : EndsInside last) :
    EndsInside (unlines (front ++ [last])) := by
  by_cases hfront : front = []
  · simpa [hfront, unlines] using h
  · rw [unlines_append hfront (List.cons_ne_nil last [])]
    exact endsInside_append _ (by simpa [unlines] using h)

theorem indent_append {text text' : String} (h : EndsInside text) (h' : text' ≠ "") (depth : Nat) :
    indent depth (text ++ "\n" ++ text') = indent depth text ++ "\n" ++ indent depth text' := by
  obtain ⟨front, last, htext, hfeed, hreturn⟩ := h
  have hsplit : lines (text ++ "\n" ++ text').toList = lines text.toList ++ lines text'.toList := by
    simpa [htext] using lines_append hfeed hreturn front text'.toList
  have hne : lines text.toList ≠ [] := fun h => by simpa [htext] using lines_eq_nil h
  have hne' : lines text'.toList ≠ [] := fun h => by simpa [h'] using lines_eq_nil h
  rw [indent, hsplit, List.map_append, unlines_append (by simpa using hne) (by simpa using hne')]
  rfl

theorem indent_unlines {texts : List String} (h : ∀ text ∈ texts, EndsInside text) (depth : Nat) :
    indent depth (unlines texts) = unlines (texts.map (indent depth)) := by
  induction texts with
  | nil => rfl
  | cons text texts ih =>
    obtain ⟨htext, htexts⟩ := List.forall_mem_cons.mp h
    cases texts with
    | nil => simp [unlines]
    | cons text' texts =>
      have hunlines : unlines (text :: text' :: texts) = text ++ "\n" ++ unlines (text' :: texts) :=
        String.intercalate_cons_cons
      have hne : unlines (text' :: texts) ≠ "" := by
        have hlast := htexts _ (List.getLast_mem (List.cons_ne_nil text' texts))
        have hends := endsInside_unlines (text' :: texts).dropLast hlast
        rw [List.dropLast_append_getLast] at hends
        exact hends.ne_empty
      rw [hunlines, indent_append htext hne, ih htexts]
      exact String.intercalate_cons_cons.symm

end Lines

namespace Override

/-- The lines of an override: the branches, with a separator between them, are the inside of one
line or make up lines of their own. -/
structure Frame where
  before : List String
  start : String := ""
  separator : String := "\n"
  stop : String := ""
  after : List String

def Frame.around (frame : Frame) (branches : List String) : String :=
  unlines (frame.before ++
    (frame.start ++ frame.separator.intercalate branches ++ frame.stop) :: frame.after)

/-- The frame of an override that returns a fixed value. -/
def constantFrame (kind : GameFunction) (value : String) : Frame where
  before := ["local " ++ variableName kind.function ++ "_ref = " ++ kind.function,
    "function " ++ kind.function ++ "(...)"]
  start := "    if "
  separator := " or "
  stop := " then"
  after := ["        return " ++ value,
    "    end",
    "    return " ++ variableName kind.function ++ "_ref(...)",
    "end"]

def frame : GameFunction → Frame
  | .setCost => {
      before := ["local card_set_cost_ref = Card.set_cost",
        "function Card:set_cost()",
        "    card_set_cost_ref(self)",
        "    if self.area and self.area ~= G.jokers and self.area ~= G.consumeables then"]
      after := ["        self.sell_cost = math.max(1, math.floor(self.cost / 2)) + " ++
          "(self.ability.extra_value or 0)",
        "        self.sell_cost_label = self.facing == 'back' and '?' or self.sell_cost",
        "    end",
        "end"] }
  | .fourFingers => constantFrame .fourFingers "4"
  | .shortcut => constantFrame .shortcut "true"
  | .alwaysScores => constantFrame .alwaysScores "true"
  | .showman => constantFrame .showman "true"
  | .isSuit => {
      before := ["local card_is_suit_ref = Card.is_suit",
        "function Card:is_suit(suit, bypass_debuff, flush_calc)",
        "    local ret = card_is_suit_ref(self, suit, bypass_debuff, flush_calc)",
        "    if not ret and not SMODS.has_no_suit(self) then"]
      after := ["    end", "    return ret", "end"] }
  | .getId => {
      before := ["local card_get_id_ref = Card.get_id",
        "function Card:get_id()",
        "    local id = card_get_id_ref(self)",
        "    if id and id > 0 then"]
      after := ["    end", "    return id", "end"] }

/-- The part of an override that one request asks for. -/
def branch : GameFunction → OverrideRequest → String
  | .setCost, r => indent 2 (r.forEachCopy r.discount)
  | .isSuit, r => indent 2 r.suitBranch
  | .getId, r => indent 2 r.rankBranch
  | .fourFingers, r | .shortcut, r | .alwaysScores, r | .showman, r => r.owned

section Text

variable {requests : List OverrideRequest}

theorem endsInside_end : EndsInside "end" :=
  ⟨['e', 'n'], 'd', by decide, by decide, by decide⟩

theorem indent_branches {f : OverrideRequest → String} (h : ∀ r, EndsInside (f r)) :
    indent 2 (unlines (requests.map f)) = unlines (requests.map fun r => indent 2 (f r)) := by
  have hall : ∀ text ∈ requests.map f, EndsInside text := by
    simpa using fun r _ => h r
  rw [indent_unlines hall, List.map_map]
  rfl

theorem constantOverride_eq (kind : GameFunction) (value : String) :
    constantOverride kind value requests =
      (constantFrame kind value).around (requests.map (·.owned)) := by
  simp only [constantOverride, constantFrame, Frame.around, toString, String.append_assoc,
    List.cons_append, List.nil_append]
  rfl

theorem around_block {before after : List String} (texts : List String) :
    Frame.around { before, after } texts = unlines (before ++ unlines texts :: after) := by
  simp [Frame.around, unlines]

theorem override_eq (kind : GameFunction) :
    override kind requests = (frame kind).around (requests.map (branch kind)) := by
  cases kind with
  | setCost =>
    have hends : ∀ r : OverrideRequest, EndsInside (r.forEachCopy r.discount) := fun r =>
      endsInside_unlines [_, _] endsInside_end
    rw [override, setCost, indent_branches hends, frame, around_block]
    rfl
  | isSuit =>
    have hends : ∀ r : OverrideRequest, EndsInside r.suitBranch := fun r =>
      endsInside_unlines [_, _, _, _] endsInside_end
    rw [override, isSuit, indent_branches hends, frame, around_block]
    rfl
  | getId =>
    have hends : ∀ r : OverrideRequest, EndsInside r.rankBranch := fun r =>
      endsInside_unlines [_, _] endsInside_end
    rw [override, getId, indent_branches hends, frame, around_block]
    rfl
  | fourFingers => exact constantOverride_eq _ _
  | shortcut => exact constantOverride_eq _ _
  | alwaysScores => exact constantOverride_eq _ _
  | showman => exact constantOverride_eq _ _

end Text

/-- The requests for a function, each of them once, in the order in which they first occur. -/
structure Distinct (requests : List OverrideRequest) (kind : GameFunction)
    (distinct : List OverrideRequest) : Prop where
  mem_iff : ∀ r, r ∈ distinct ↔ r ∈ requests ∧ r.kind = kind
  ordered : distinct.Pairwise fun r s => requests.idxOf r < requests.idxOf s

/-- The second list is the first one with requests that come up again later. -/
inductive Repeating (requests : List OverrideRequest) : List OverrideRequest → Prop
  | refl : Repeating requests requests
  | again {front back : List OverrideRequest} {r : OverrideRequest} :
      Repeating requests (front ++ back) → r ∈ front → Repeating requests (front ++ r :: back)

section Requests

variable {requests others : List OverrideRequest}

theorem distinct_requestsFor (requests : List OverrideRequest) (kind : GameFunction) :
    Distinct requests kind (requestsFor kind requests) where
  mem_iff r := by simp [requestsFor, List.mem_eraseDups]
  ordered := by
    refine (pairwise_idxOf_eraseDups _).imp_of_mem ?_
    intro r s hr hs hlt
    have hr := (List.mem_filter.mp (List.mem_eraseDups.mp hr)).2
    have hs := (List.mem_filter.mp (List.mem_eraseDups.mp hs)).2
    exact (idxOf_filter_lt_iff (p := (·.kind == kind)) hr hs requests).mp hlt

theorem overrides_congr (h : ∀ kind, requestsFor kind others = requestsFor kind requests) :
    overrides others = overrides requests := by
  simp only [overrides, h]

theorem overrides_repeat {front : List OverrideRequest} {r : OverrideRequest} (hr : r ∈ front)
    (back : List OverrideRequest) : overrides (front ++ r :: back) = overrides (front ++ back) := by
  refine overrides_congr fun kind => ?_
  by_cases hkind : r.kind = kind
  · have hmem : r ∈ front.filter (·.kind == kind) := by simpa [hkind] using hr
    simpa [requestsFor, hkind] using eraseDups_repeat hmem (back.filter (·.kind == kind))
  · simp [requestsFor, hkind]

theorem Repeating.overrides_eq {longer : List OverrideRequest} (h : Repeating requests longer) :
    overrides longer = overrides requests := by
  induction h with
  | refl => rfl
  | again _ hr ih => exact (overrides_repeat hr _).trans ih

theorem overrides_append_self : overrides (requests ++ requests) = overrides requests := by
  refine overrides_congr fun kind => ?_
  rw [requestsFor, List.filter_append, eraseDups_append_self, requestsFor]

/-- Each function that is asked for has one override, in the order of the functions, and in it every
distinct request has one branch, in the order of first occurrence. So nothing changes when requests
come up again, when the whole list comes up again, or when requests for different functions change
places. -/
theorem overrides_branch_per_request (requests : List OverrideRequest) :
    (∃ (kinds : List GameFunction) (distinct : GameFunction → List OverrideRequest),
      kinds.Pairwise (fun k l => GameFunction.all.idxOf k < GameFunction.all.idxOf l) ∧
      (∀ k, k ∈ kinds ↔ ∃ r ∈ requests, r.kind = k) ∧ (∀ k, Distinct requests k (distinct k)) ∧
      overrides requests = kinds.map fun k => (frame k).around ((distinct k).map (branch k))) ∧
    (∀ longer, Repeating requests longer → overrides longer = overrides requests) ∧
    overrides (requests ++ requests) = overrides requests ∧
    ∀ moved : List OverrideRequest,
      (∀ k, moved.filter (·.kind == k) = requests.filter (·.kind == k)) →
        overrides moved = overrides requests := by
  refine ⟨⟨GameFunction.all.filter fun k => !(requestsFor k requests).isEmpty,
    (requestsFor · requests), ?_, ?_, distinct_requestsFor requests, ?_⟩,
    fun longer h => h.overrides_eq, overrides_append_self, ?_⟩
  · have hall : GameFunction.all.Pairwise
        fun k l => GameFunction.all.idxOf k < GameFunction.all.idxOf l := by decide
    exact hall.filter _
  · intro k
    have hk : k ∈ GameFunction.all := by cases k <;> decide
    have hne : requestsFor k requests ≠ [] ↔ ∃ r ∈ requests, r.kind = k := by
      simp [List.eq_nil_iff_forall_not_mem, (distinct_requestsFor requests k).mem_iff]
    simpa [hk] using hne
  · simp only [overrides, override_eq]
  · intro moved h
    exact overrides_congr fun k => congrArg List.eraseDups (h k)

/-- Straights and flushes of four cards, asked for twice, and straights with gaps. -/
def wide : OverrideRequest := ⟨.fourFingers, "j_wide", {}⟩

def jump : OverrideRequest := ⟨.shortcut, "j_jump", {}⟩

def wider : OverrideRequest := ⟨.fourFingers, "j_wider", {}⟩

theorem overrides_wide_jump_wider :
    overrides [wide, jump, wider, jump, wide] = overrides [wide, jump, wider] ∧
      overrides [jump, wide, wider] = overrides [wide, jump, wider] ∧
      overrides [wide, jump, wider] =
        [(frame .fourFingers).around [branch .fourFingers wide, branch .fourFingers wider],
          (frame .shortcut).around [branch .shortcut jump]] := by
  obtain ⟨-, hlonger, -, hmoved⟩ := overrides_branch_per_request [wide, jump, wider]
  refine ⟨hlonger _ ?_, hmoved _ ?_, by decide +kernel⟩
  · have hjump : Repeating [wide, jump, wider] ([wide, jump, wider] ++ jump :: []) :=
      .again .refl (by decide)
    have hwide : Repeating [wide, jump, wider] ([wide, jump, wider, jump] ++ wide :: []) :=
      .again hjump (by decide)
    exact hwide
  · intro k
    cases k <;> decide

end Requests

end Override

end JokerRules
