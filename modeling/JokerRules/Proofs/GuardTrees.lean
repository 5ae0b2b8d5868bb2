import JokerRules.Proofs.Brackets.Conditions
import JokerRules.Proofs.GuardFold

/-! Guards as trees of joined operands, the way the game reads them: code is cut at its last `or`
outside brackets and literals, or else at its last `and` there, and parentheses around the whole are
taken off. The tree of a guard is the two-level fold of the trees of its conditions, and parentheses
around a condition make no difference. -/

namespace JokerRules.Guard

open Text Brackets

inductive JoinTree
  | operand (ls : List Lexeme)
  | join (j : Joiner) (a b : JoinTree)
deriving DecidableEq

/-- What stands before and after the last of these joiners outside brackets. -/
def cutLast? (j : Joiner) : Nat → List Lexeme → Option (List Lexeme × List Lexeme)
  | _, [] => none
  | n, l :: ls =>
    match cutLast? j (levelAfter n l) ls with
    | some (a, b) => some (l :: a, b)
    | none => if n = 0 ∧ l = j.word.toList then some ([], ls) else none

/-- What stands between parentheses that belong together. -/
def enclosed? : List Lexeme → Option (List Lexeme)
  | [] => none
  | l :: ls =>
    if l = ['('] ∧ ls.getLast? = some [')'] ∧ level? 0 ls.dropLast = some 0 then some ls.dropLast
    else none

theorem cutLast?_eq_some {j : Joiner} {n : Nat} {ls a b : List Lexeme}
    (h : cutLast? j n ls = some (a, b)) : ls = a ++ j.word.toList :: b := by
  induction ls generalizing n a with
  | nil => cases h
  | cons l ls ih =>
    rw [cutLast?] at h
    split at h
    · next hcut =>
      cases h
      rw [List.cons_append, ← ih hcut]
    · split at h
      · next hl =>
        cases h
        rw [hl.2, List.nil_append]
      · cases h

theorem length_lt_of_cutLast? {j : Joiner} {n : Nat} {ls a b : List Lexeme}
    (h : cutLast? j n ls = some (a, b)) : a.length < ls.length ∧ b.length < ls.length := by
  rw [cutLast?_eq_some h, List.length_append, List.length_cons]
  omega

theorem cutLast?_eq_none {j : Joiner} {n : Nat} {ls : List Lexeme}
    (h : ∀ l ∈ outer n ls, l ≠ j.word.toList) : cutLast? j n ls = none := by
  induction ls generalizing n with
  | nil => rfl
  | cons l ls ih =>
    obtain ⟨hfirst, hrest⟩ := List.forall_mem_append.mp h
    rw [cutLast?, ih hrest]
    refine if_neg fun hl => ?_
    rw [if_pos hl.1] at hfirst
    exact hfirst l (List.mem_singleton_self l) hl.2

theorem levelAfter_word (j : Joiner) : levelAfter 0 j.word.toList = 0 := by
  cases j <;> rfl

theorem cutLast?_append {j : Joiner} {n : Nat} {xs ys : List Lexeme} (hxs : level? n xs = some 0)
    (hys : ∀ l ∈ outer 0 ys, l ≠ j.word.toList) :
    cutLast? j n (xs ++ j.word.toList :: ys) = some (xs, ys) := by
  induction xs generalizing n with
  | nil =>
    cases hxs
    rw [List.nil_append, cutLast?, levelAfter_word, cutLast?_eq_none hys]
    exact if_pos ⟨rfl, rfl⟩
  | cons l xs ih =>
    rw [level?] at hxs
    split at hxs
    · cases hxs
    · rw [List.cons_append, cutLast?, ih hxs]

theorem enclosed?_eq_some {ls inner : List Lexeme} (h : enclosed? ls = some inner) :
    ls = ['('] :: (inner ++ [[')']]) := by
  cases ls with
  | nil => cases h
  | cons l ls =>
    simp only [enclosed?, Option.ite_none_right_eq_some, Option.some.injEq] at h
    obtain ⟨⟨rfl, hlast, -⟩, rfl⟩ := h
    rw [List.dropLast_append_getLast? _ hlast]

theorem length_lt_of_enclosed? {ls inner : List Lexeme} (h : enclosed? ls = some inner) :
    inner.length < ls.length := by
  rw [enclosed?_eq_some h, List.length_cons, List.length_append]
  omega

theorem enclosed?_parens {inner : List Lexeme} (h : level? 0 inner = some 0) :
    enclosed? (['('] :: (inner ++ [[')']])) = some inner := by
  simp [enclosed?, h]

def joinTree (ls : List Lexeme) : JoinTree :=
  match _hor : cutLast? .or 0 ls with
  | some (a, b) => .join .or (joinTree a) (joinTree b)
  | none =>
    match _hand : cutLast? .and 0 ls with
    | some (a, b) => .join .and (joinTree a) (joinTree b)
    | none =>
      match _hinner : enclosed? ls with
      | some inner => joinTree inner
      | none => .operand ls
termination_by ls.length
decreasing_by
  · exact (length_lt_of_cutLast? _hor).1
  · exact (length_lt_of_cutLast? _hor).2
  · exact (length_lt_of_cutLast? _hand).1
  · exact (length_lt_of_cutLast? _hand).2
  · exact length_lt_of_enclosed? _hinner

def parse (text : String) : JoinTree :=
  joinTree (lexemes text)

theorem ne_word {l : Lexeme} (h : isJoiner l = false) (j : Joiner) : l ≠ j.word.toList := by
  intro hl
  rw [isJoiner_iff.mpr ⟨j, hl⟩] at h
  cases h

theorem joinTree_join (j : Joiner) {xs ys : List Lexeme} (hlevel : level? 0 xs = some 0)
    (hxs : ∀ l ∈ outer 0 xs, isJoiner l = false) (hys : ∀ l ∈ outer 0 ys, isJoiner l = false) :
    joinTree (xs ++ j.word.toList :: ys) = .join j (joinTree xs) (joinTree ys) := by
  have hcut : cutLast? j 0 (xs ++ j.word.toList :: ys) = some (xs, ys) :=
    cutLast?_append hlevel fun l hl => ne_word (hys l hl) j
  rw [joinTree]
  cases j with
  | or => rw [hcut]
  | and =>
    have hnone : cutLast? .or 0 (xs ++ Joiner.and.word.toList :: ys) = none := by
      refine cutLast?_eq_none ?_
      rw [outer_append hlevel, outer, if_pos rfl, levelAfter_word]
      simp only [List.forall_mem_append, List.forall_mem_singleton]
      exact ⟨fun l hl => ne_word (hxs l hl) .or, by decide, fun l hl => ne_word (hys l hl) .or⟩
    rw [hnone, hcut]

theorem joinTree_parens {xs : List Lexeme} (h : level? 0 xs = some 0) :
    joinTree (['('] :: (xs ++ [[')']])) = joinTree xs := by
  obtain ⟨hlevel, hinside⟩ : level? 1 xs = some 1 ∧ outer 1 xs = [] := inside_brackets h 0
  have hopen : levelAfter 0 ['('] = 1 := rfl
  have houter : outer 0 (['('] :: (xs ++ [[')']])) = [['(']] := by
    rw [outer, hopen, outer_append hlevel, hinside]
    rfl
  have hnone : ∀ j, cutLast? j 0 (['('] :: (xs ++ [[')']])) = none := by
    intro j
    refine cutLast?_eq_none ?_
    rw [houter]
    exact List.forall_mem_singleton.mpr (ne_word (isJoiner_sign '(') j)
  rw [joinTree, hnone, hnone, enclosed?_parens h]

theorem lexemes_parens {text : String} (h : Neutral text) :
    lexemes ("(" ++ text ++ ")") = ['('] :: (lexemes text ++ [[')']]) := by
  have hopen : lexemes ("(" ++ (text ++ ")")) = ['('] :: lexemes (text ++ ")") := by
    rw [lexemes, String.toList_append]
    rfl
  rw [String.append_assoc, hopen, lexemes_append h (by simp; decide)]
  rfl

theorem lexemes_joined (j : Joiner) {a b : String} (ha : Neutral a) :
    lexemes (a ++ " " ++ j.word ++ " " ++ b) = lexemes a ++ j.word.toList :: lexemes b := by
  have hword : lexemes (" " ++ (j.word ++ (" " ++ b))) = j.word.toList :: lexemes b := by
    rw [lexemes, String.toList_append, String.toList_append, String.toList_append]
    cases j <;> rfl
  rw [String.append_assoc, String.append_assoc, String.append_assoc, lexemes_append ha (by simp; decide),
    hword]

theorem parse_parens {text : String} (h : Neutral text) : parse ("(" ++ text ++ ")") = parse text := by
  rw [parse, lexemes_parens h, joinTree_parens (level?_lexemes h), parse]

theorem operand_parens {text : String} (h : Neutral text) : Operand ("(" ++ text ++ ")") :=
  operand_joined [.fixed _, .enclosed _ h, .fixed _] rfl

theorem neutral_joined (j : Joiner) {a b : String} (ha : Neutral a) (hb : Neutral b) :
    Neutral (a ++ " " ++ j.word ++ " " ++ b) := by
  have hword : Neutral j.word := by cases j <;> exact neutral_fixed rfl
  exact neutral_template [.hole _ ha, .fixed _, .hole _ hword, .fixed _, .hole _ hb] rfl

theorem joinText_eq (j : Joiner) (a b : String) :
    joinText j a b = "(" ++ (a ++ " " ++ j.word ++ " " ++ b) ++ ")" := by
  simp only [joinText, String.append_assoc]

theorem parse_joinText (j : Joiner) {a b : String} (ha : Operand a) (hb : Operand b) :
    parse (joinText j a b) = .join j (parse a) (parse b) := by
  rw [joinText_eq, parse_parens (neutral_joined j ha.neutral hb.neutral), parse,
    lexemes_joined j ha.neutral, joinTree_join j (level?_lexemes ha.neutral) ha.joinless hb.joinless]
  rfl

/-- Without parentheses a joiner that stands outside brackets takes part in the tree. -/
example : parse (joinText .and "a or b" "c") ≠ parse (joinText .and "(a or b)" "c") := by
  decide +kernel

/-- An operand with its tree. -/
def ParsesTo (text : String) (tree : JoinTree) : Prop :=
  Operand text ∧ parse text = tree

theorem ParsesTo.join (j : Joiner) (a b : String) (x y : JoinTree) (ha : ParsesTo a x)
    (hb : ParsesTo b y) :
    ParsesTo (joinText j a b) (.join j x y) := by
  obtain ⟨ha, rfl⟩ := ha
  obtain ⟨hb, rfl⟩ := hb
  refine ⟨?_, parse_joinText j ha hb⟩
  rw [joinText_eq]
  exact operand_parens (neutral_joined j ha.neutral hb.neutral)

theorem ParsesTo.parens {text : String} {tree : JoinTree} (h : ParsesTo text tree) :
    ParsesTo ("(" ++ text ++ ")") tree :=
  ⟨operand_parens h.1.neutral, (parse_parens h.1.neutral).trans h.2⟩

def TermGroup.trees (g : TermGroup) : List (JoinTree × Joiner) × Joiner :=
  (g.terms.map fun t => (parse t.expr, t.next), g.next)

/-- The same term, in parentheses of its own or not. -/
def SameTerm (t u : Term) : Prop :=
  (u.expr = t.expr ∨ u.expr = "(" ++ t.expr ++ ")") ∧ u.next = t.next

structure SameGroup (g h : TermGroup) : Prop where
  terms : List.Forall₂ SameTerm g.terms h.terms
  next : h.next = g.next

theorem SameTerm.parsesTo {t u : Term} (h : SameTerm t u) (ht : Operand t.expr) :
    ParsesTo u.expr (parse t.expr) := by
  have hsame : ParsesTo t.expr (parse t.expr) := ⟨ht, rfl⟩
  rcases h.1 with hexpr | hexpr
  · rw [hexpr]
    exact hsame
  · rw [hexpr]
    exact hsame.parens

/-- Groups of operands are read term by term, with or without parentheses around the terms. -/
theorem fold?_parse {groups wrapped : List TermGroup}
    (h : ∀ g ∈ groups, ∀ t ∈ g.terms, Operand t.expr)
    (hwrapped : List.Forall₂ SameGroup groups wrapped) :
    (fold? wrapped).map parse = twoLevelFold? JoinTree.join (groups.map TermGroup.trees) := by
  have hterms : ∀ g g', (∀ t ∈ g.terms, Operand t.expr) ∧ SameGroup g g' →
      List.Forall₂ (fun a x => ParsesTo a.1 x.1 ∧ a.2 = x.2) (TermGroup.pairs g').1
        (TermGroup.trees g).1 := by
    intro g g' hg
    rw [TermGroup.pairs, TermGroup.trees, List.forall₂_map_left_iff, List.forall₂_map_right_iff]
    refine List.Forall₂.flip (((List.forall₂_and_left _ _).mpr ⟨hg.1, hg.2.terms⟩).imp fun t u ht => ?_)
    exact ⟨ht.2.parsesTo ht.1, ht.2.2⟩
  have hrel : Option.Rel ParsesTo (fold? wrapped)
      (twoLevelFold? JoinTree.join (groups.map TermGroup.trees)) := by
    rw [fold?_eq_twoLevelFold?]
    apply twoLevelFold?_rel ParsesTo.join
    rw [List.forall₂_map_left_iff, List.forall₂_map_right_iff]
    refine List.Forall₂.flip (((List.forall₂_and_left _ _).mpr ⟨h, hwrapped⟩).imp fun g g' hg => ?_)
    exact ⟨hterms g g' hg, hg.2.next⟩
  simpa using map_eq_map_of_rel (g := id) (fun _ _ hparse => hparse.2) hrel

theorem operand_termGroup (g : ConditionGroup) (t : Trigger) :
    ∀ term ∈ (g.termGroup t Registry.builtin).terms, Operand term.expr := by
  intro term hterm
  obtain ⟨c, -, hterm⟩ := List.mem_filterMap.mp hterm
  obtain ⟨expr, hexpr, rfl⟩ := Option.map_eq_some_iff.mp hterm
  exact operand_conditionExpr c t expr hexpr

/-- Somewhere outside brackets and literals a joiner stands between blanks. -/
def JoinsOutside (text : String) : Prop :=
  ∃ (j : Joiner) (before after : List Char),
    text.toList = before ++ ' ' :: (j.word.toList ++ ' ' :: after) ∧
      scan ⟨.code, []⟩ before = some ⟨.code, []⟩

theorem not_joinsOutside {text : String} (h : Operand text) : ¬JoinsOutside text := by
  rintro ⟨j, before, after, htext, hbefore⟩
  have hword : lexemesFrom .code [] (' ' :: (j.word.toList ++ ' ' :: after)) =
      j.word.toList :: lexemesFrom .code [] after := by
    cases j <;> rfl
  have hlexemes : lexemes text =
      lexemesFrom .code [] before ++ j.word.toList :: lexemesFrom .code [] after := by
    rw [lexemes, htext, ← hword]
    exact lexemesFrom_append [] hbefore (by simp; decide)
  have hneutral : WellBracketed (String.ofList before) := by
    rwa [WellBracketed, String.toList_ofList]
  have hlevel : level? 0 (lexemesFrom .code [] before) = some 0 := by
    have := level?_lexemes hneutral.neutral
    rwa [lexemes, String.toList_ofList] at this
  have hmem : j.word.toList ∈ outer 0 (lexemes text) := by
    rw [hlexemes, outer_append hlevel, outer]
    simp
  exact ne_word (h.joinless _ hmem) j rfl

/-- No condition has a joiner outside its own brackets, so joining keeps every condition whole: a
guard is joined from the trees of its conditions, and from the same trees if some of them stand in
parentheses. -/
theorem conditions_joined_whole (t : Trigger) :
    (∀ c : Condition, ∀ expr ∈ c.expr? t Registry.builtin, WellBracketed expr ∧ ¬JoinsOutside expr) ∧
    ∀ groups : List ConditionGroup,
      (guard? groups t Registry.builtin).map parse =
        twoLevelFold? JoinTree.join
          (groups.map fun g => TermGroup.trees (g.termGroup t Registry.builtin)) ∧
      ∀ wrapped, List.Forall₂ SameGroup (groups.map (·.termGroup t Registry.builtin)) wrapped →
        (fold? wrapped).map parse = (guard? groups t Registry.builtin).map parse := by
  have hfold : ∀ (groups : List ConditionGroup) (wrapped : List TermGroup),
      List.Forall₂ SameGroup (groups.map (·.termGroup t Registry.builtin)) wrapped →
        (fold? wrapped).map parse = twoLevelFold? JoinTree.join
          (groups.map fun g => TermGroup.trees (g.termGroup t Registry.builtin)) := by
    intro groups wrapped hwrapped
    rw [fold?_parse _ hwrapped, List.map_map]
    · rfl
    · simp only [List.forall_mem_map]
      exact fun g _ => operand_termGroup g t
  have hsame : ∀ g : TermGroup, SameGroup g g := fun g =>
    ⟨List.forall₂_same.mpr fun u _ => ⟨.inl rfl, rfl⟩, rfl⟩
  refine ⟨fun c expr hexpr => ?_, fun groups => ?_⟩
  · have hoperand := operand_conditionExpr c t expr hexpr
    exact ⟨hoperand.neutral.scan [], not_joinsOutside hoperand⟩
  · have hguard := hfold groups _ (List.forall₂_same.mpr fun g _ => hsame g)
    refine ⟨hguard, fun wrapped hwrapped => ?_⟩
    exact (hfold groups wrapped hwrapped).trans hguard.symm

def moneyCondition : Condition where
  id := "m"
  kind := .playerMoney
  params := .ofList [("operator", .str ">="), ("value", .str "GAMEVAR:tarots_used")]

def moneyTest : String :=
  "(G.GAME.dollars + (G.GAME.dollar_buffer or 0)) >= (G.GAME.consumeable_usage_total and " ++
    "G.GAME.consumeable_usage_total.tarot or 0)"

def sealCondition : Condition where
  id := "s"
  kind := .cardSeal
  params := .ofList [("seal", .str "Red\" or \"Blue")]
  negate := true
  next := .or

def sealTest : String :=
  "not (context.other_card.seal == \"Red\\\" or \\\"Blue\")"

/-- Both sides of the comparison have joiners in brackets, and the name of the seal has one in a
text. -/
theorem moneyTest_joined_whole :
    WellBracketed moneyTest ∧ ¬JoinsOutside moneyTest ∧
    (fold? [⟨[⟨sealTest, .or⟩], .and⟩,
        ⟨[⟨"(" ++ sealTest ++ ")", .or⟩, ⟨"(" ++ moneyTest ++ ")", .and⟩], .and⟩]).map parse =
      some (.join .and (parse sealTest) (.join .or (parse sealTest) (parse moneyTest))) := by
  have hmoney : moneyCondition.expr? .cardScored Registry.builtin = some moneyTest := by decide +kernel
  have hseal : sealCondition.expr? .cardScored Registry.builtin = some sealTest := by decide +kernel
  obtain ⟨hexpr, hguard⟩ := conditions_joined_whole .cardScored
  obtain ⟨hparse, hwrapped⟩ := hguard [⟨[sealCondition], .and⟩, ⟨[sealCondition, moneyCondition], .and⟩]
  obtain ⟨hbracketed, hjoins⟩ := hexpr moneyCondition moneyTest hmoney
  refine ⟨hbracketed, hjoins, ?_⟩
  simp only [List.map_cons, List.map_nil, ConditionGroup.termGroup, List.filterMap_cons,
    List.filterMap_nil,
    hmoney, hseal, Option.map_some] at hparse hwrapped
  rw [hwrapped, hparse]
  · rfl
  · have hwrap : ∀ u : Term, SameTerm u ⟨"(" ++ u.expr ++ ")", u.next⟩ := fun u => ⟨.inr rfl, rfl⟩
    exact .cons ⟨.cons ⟨.inl rfl, rfl⟩ .nil, rfl⟩
      (.cons ⟨.cons (hwrap _) (.cons (hwrap _) .nil), rfl⟩ .nil)

end JokerRules.Guard
