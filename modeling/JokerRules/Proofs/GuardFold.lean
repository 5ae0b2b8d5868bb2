import JokerRules.Condition.Guard
import JokerRules.Proofs.GuardTexts
import Mathlib.Data.List.Forall2

/-! The guard as a left fold on two levels: the terms of each group first, then the groups that
have terms. The text of the guard, read by the precedence of its operators, has the value of
this fold. -/

namespace JokerRules.Guard

/-- Joins further values to the one at hand; each value says how the next one is joined to all
before it. -/
def leftFold? {α : Type} (join : Joiner → α → α → α) : List (α × Joiner) → Option α
  | [] => none
  | x :: xs => some (xs.foldl (fun acc y => (join acc.2 acc.1 y.1, y.2)) x).1

/-- The left fold of each group, then of the groups that have a value. -/
def twoLevelFold? {α : Type} (join : Joiner → α → α → α)
    (groups : List (List (α × Joiner) × Joiner)) : Option α :=
  leftFold? join (groups.filterMap fun g => (leftFold? join g.1).map fun x => (x, g.2))

theorem leftFold?_eq_none {α : Type} {join : Joiner → α → α → α} {xs : List (α × Joiner)} :
    leftFold? join xs = none ↔ xs = [] := by
  cases xs <;> simp [leftFold?]

theorem twoLevelFold?_eq_none {α : Type} {join : Joiner → α → α → α}
    {groups : List (List (α × Joiner) × Joiner)} :
    twoLevelFold? join groups = none ↔ ∀ g ∈ groups, g.1 = [] := by
  simp [twoLevelFold?, leftFold?_eq_none, List.filterMap_eq_nil_iff]

/-- Groups without values have no part in the fold. -/
theorem twoLevelFold?_filter {α : Type} (join : Joiner → α → α → α)
    (groups : List (List (α × Joiner) × Joiner)) :
    twoLevelFold? join (groups.filter fun g => !g.1.isEmpty) = twoLevelFold? join groups := by
  unfold twoLevelFold?
  rw [List.filterMap_filter]
  congr 2
  funext g
  cases hg : g.1 <;> simp [leftFold?]

/-- A relation that joining keeps holds between the folds of related values. -/
theorem leftFold?_rel {α β : Type} {R : α → β → Prop} {f : Joiner → α → α → α}
    {g : Joiner → β → β → β}
    (hjoin : ∀ j a b x y, R a x → R b y → R (f j a b) (g j x y))
    {as : List (α × Joiner)} {xs : List (β × Joiner)}
    (h : List.Forall₂ (fun a x => R a.1 x.1 ∧ a.2 = x.2) as xs) :
    Option.Rel R (leftFold? f as) (leftFold? g xs) := by
  cases h with
  | nil => exact .none
  | @cons a x as xs ha h =>
    refine .some ?_
    induction h generalizing a x with
    | nil => exact ha.1
    | @cons b y as xs hb _ ih =>
      refine ih (a := (f a.2 a.1 b.1, b.2)) (x := (g x.2 x.1 y.1, y.2)) ⟨?_, hb.2⟩
      rw [ha.2]
      exact hjoin _ _ _ _ _ ha.1 hb.1

theorem twoLevelFold?_rel {α β : Type} {R : α → β → Prop} {f : Joiner → α → α → α}
    {g : Joiner → β → β → β}
    (hjoin : ∀ j a b x y, R a x → R b y → R (f j a b) (g j x y))
    {as : List (List (α × Joiner) × Joiner)} {xs : List (List (β × Joiner) × Joiner)}
    (h : List.Forall₂ (fun a x => List.Forall₂ (fun a x => R a.1 x.1 ∧ a.2 = x.2) a.1 x.1 ∧
      a.2 = x.2) as xs) :
    Option.Rel R (twoLevelFold? f as) (twoLevelFold? g xs) := by
  apply leftFold?_rel hjoin
  induction h with
  | nil => exact .nil
  | @cons a x as xs ha _ ih =>
    have hfold := leftFold?_rel hjoin ha.1
    rw [List.filterMap_cons, List.filterMap_cons]
    cases hfa : leftFold? f a.1 with
    | none =>
      rw [hfa] at hfold
      cases hfx : leftFold? g x.1 with
      | none => exact ih
      | some y => rw [hfx] at hfold; cases hfold
    | some b =>
      rw [hfa] at hfold
      cases hfx : leftFold? g x.1 with
      | none => rw [hfx] at hfold; cases hfold
      | some y =>
        rw [hfx] at hfold
        cases hfold with
        | some hby => exact .cons ⟨hby, ha.2⟩ ih

theorem map_eq_map_of_rel {α β γ : Type} {R : α → β → Prop} {f : α → γ} {g : β → γ}
    (hR : ∀ a b, R a b → f a = g b) {x : Option α} {y : Option β} (h : Option.Rel R x y) :
    x.map f = y.map g := by
  cases h with
  | none => rfl
  | some hab => exact congrArg some (hR _ _ hab)

theorem joinFrom_eq_foldl (expr : String) (next : Joiner) (ts : List Term) :
    joinFrom expr next ts =
      ((ts.map fun t => (t.expr, t.next)).foldl
        (fun acc y => (joinText acc.2 acc.1 y.1, y.2)) (expr, next)).1 := by
  induction ts generalizing expr next with
  | nil => rfl
  | cons t ts ih => exact ih _ _

theorem join?_eq_leftFold? (ts : List Term) :
    join? ts = leftFold? joinText (ts.map fun t => (t.expr, t.next)) := by
  cases ts with
  | nil => rfl
  | cons t ts => exact congrArg some (joinFrom_eq_foldl t.expr t.next ts)

/-- A group as the fold takes it. -/
def TermGroup.pairs (g : TermGroup) : List (String × Joiner) × Joiner :=
  (g.terms.map fun t => (t.expr, t.next), g.next)

theorem fold?_eq_twoLevelFold? (groups : List TermGroup) :
    fold? groups = twoLevelFold? joinText (groups.map TermGroup.pairs) := by
  have hterm : ∀ g, (groupTerm? g).map (fun t => (t.expr, t.next)) =
      (leftFold? joinText (TermGroup.pairs g).1).map fun x => (x, (TermGroup.pairs g).2) := by
    intro g
    simp [groupTerm?, TermGroup.pairs, join?_eq_leftFold?, Function.comp_def]
  rw [fold?, join?_eq_leftFold?, twoLevelFold?, List.map_filterMap, List.filterMap_map]
  congr 2
  funext g
  exact hterm g

/-- Literals, each with the joiner after it, and the joiner after the group. -/
structure LiteralGroup where
  literals : List (Literal × Joiner)
  next : Joiner

namespace LiteralGroup

def termGroup (g : LiteralGroup) : TermGroup :=
  ⟨g.literals.map fun l => ⟨l.1.expr, l.2⟩, g.next⟩

def values (truth : String → Bool) (g : LiteralGroup) : List (Bool × Joiner) × Joiner :=
  (g.literals.map fun l => (l.1.value truth, l.2), g.next)

end LiteralGroup

theorem fold?_hasValue (truth : String → Bool) (groups : List LiteralGroup) :
    Option.Rel (HasValue truth) (fold? (groups.map LiteralGroup.termGroup))
      (twoLevelFold? Joiner.apply (groups.map (LiteralGroup.values truth))) := by
  rw [fold?_eq_twoLevelFold?, List.map_map]
  apply twoLevelFold?_rel HasValue.join
  rw [List.forall₂_map_left_iff, List.forall₂_map_right_iff, List.forall₂_same]
  intro g _
  refine ⟨?_, rfl⟩
  simp only [Function.comp_apply, TermGroup.pairs, LiteralGroup.termGroup, LiteralGroup.values,
    List.map_map]
  rw [List.forall₂_map_left_iff, List.forall₂_map_right_iff, List.forall₂_same]
  intro l _
  exact ⟨l.1.hasValue truth, rfl⟩

theorem fold?_evaluate (truth : String → Bool) (groups : List LiteralGroup) :
    (fold? (groups.map LiteralGroup.termGroup)).map (evaluate? truth) =
      (twoLevelFold? Joiner.apply (groups.map (LiteralGroup.values truth))).map some := by
  exact map_eq_map_of_rel (fun _ _ h => h.evaluate) (fold?_hasValue truth groups)

theorem fold?_eq_none (groups : List TermGroup) :
    fold? groups = none ↔ ∀ g ∈ groups, g.terms = [] := by
  rw [fold?_eq_twoLevelFold?, twoLevelFold?_eq_none]
  simp [TermGroup.pairs]

/-- The expressions of the conditions that mean something under the trigger. -/
def survivors (t : Trigger) (registry : Registry) (g : ConditionGroup) :
    List (String × Joiner) × Joiner :=
  (g.conditions.filterMap fun c => (c.expr? t registry).map fun expr => (expr, c.next), g.next)

/-- The groups without the conditions that mean nothing, and without the groups left empty. -/
def prune (t : Trigger) (registry : Registry) (groups : List ConditionGroup) :
    List ConditionGroup :=
  (groups.map fun g => { g with
    conditions := g.conditions.filter fun c => (c.expr? t registry).isSome }).filter
      fun g => !g.conditions.isEmpty

theorem guard?_eq_twoLevelFold? (groups : List ConditionGroup) (t : Trigger)
    (registry : Registry) :
    guard? groups t registry = twoLevelFold? joinText (groups.map (survivors t registry)) := by
  rw [guard?, fold?_eq_twoLevelFold?, List.map_map]
  congr 2
  funext g
  simp [TermGroup.pairs, ConditionGroup.termGroup, survivors, List.map_filterMap,
    Function.comp_def]

theorem survivors_keep (t : Trigger) (registry : Registry) (g : ConditionGroup) :
    survivors t registry
        { g with conditions := g.conditions.filter fun c => (c.expr? t registry).isSome } =
      survivors t registry g := by
  simp only [survivors, List.filterMap_filter, Prod.mk.injEq, and_true]
  congr 1
  funext c
  cases c.expr? t registry <;> simp

theorem survivors_isEmpty (t : Trigger) (registry : Registry) (g : ConditionGroup) :
    (survivors t registry g).1.isEmpty =
      (g.conditions.filter fun c => (c.expr? t registry).isSome).isEmpty := by
  rw [Bool.eq_iff_iff]
  simp [survivors, List.filterMap_eq_nil_iff, List.filter_eq_nil_iff]

theorem guard?_prune (groups : List ConditionGroup) (t : Trigger) (registry : Registry) :
    guard? (prune t registry groups) t registry = guard? groups t registry := by
  rw [guard?_eq_twoLevelFold?, guard?_eq_twoLevelFold?,
    ← twoLevelFold?_filter joinText (groups.map (survivors t registry)), prune,
    List.filter_map, List.filter_map, List.map_map]
  congr 1
  have hkeep : (survivors t registry ∘ fun g : ConditionGroup => { g with
      conditions := g.conditions.filter fun c => (c.expr? t registry).isSome }) =
      survivors t registry := funext (survivors_keep t registry)
  rw [hkeep]
  congr 2
  funext g
  simp [survivors_isEmpty]

/-- The guard of literals has the value of their left fold on two levels, it is missing exactly if
there are no terms, and the guard of conditions is this fold over the expressions of those that mean
something, so that taking out the others beforehand changes nothing. -/
theorem guard_reads_as_left_fold :
    (∀ (truth : String → Bool) (groups : List LiteralGroup),
      (fold? (groups.map LiteralGroup.termGroup)).map (evaluate? truth) =
        (twoLevelFold? Joiner.apply (groups.map (LiteralGroup.values truth))).map some) ∧
    (∀ groups : List TermGroup, fold? groups = none ↔ ∀ g ∈ groups, g.terms = []) ∧
    (∀ (groups : List ConditionGroup) (t : Trigger) (registry : Registry),
      guard? groups t registry = twoLevelFold? joinText (groups.map (survivors t registry)) ∧
      guard? (prune t registry groups) t registry = guard? groups t registry) :=
  ⟨fold?_evaluate, fold?_eq_none, fun groups t registry =>
    ⟨guard?_eq_twoLevelFold? groups t registry, guard?_prune groups t registry⟩⟩

end JokerRules.Guard
