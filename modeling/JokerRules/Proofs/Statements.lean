import Mathlib
import JokerRules.Item
import JokerRules.Text.Layout

/-! What code does to the slots of the card and to local variables. A block of code may take its
lines in any order and any number of times, which covers whatever its branches and loops do. -/

namespace JokerRules

open Text

def isNameChar (c : Char) : Bool :=
  c.isAlphanum || c == '_'

theorem isNameChar_iff {c : Char} :
    isNameChar c = true ↔ (65 ≤ c.toNat ∧ c.toNat ≤ 90) ∨ (97 ≤ c.toNat ∧ c.toNat ≤ 122) ∨
      (48 ≤ c.toNat ∧ c.toNat ≤ 57) ∨ c.toNat = 95 := by
  have halphanum : c.isAlphanum = true ↔ (65 ≤ c.toNat ∧ c.toNat ≤ 90) ∨
      (97 ≤ c.toNat ∧ c.toNat ≤ 122) ∨ (48 ≤ c.toNat ∧ c.toNat ≤ 57) := by
    simp [Char.isAlphanum, Char.isAlpha, Char.isUpper, Char.isLower, Char.isDigit,
      UInt32.le_iff_toNat_le, or_assoc]
  have hunderscore : (c == '_') = true ↔ c.toNat = 95 := by
    rw [beq_iff_eq]
    exact ⟨fun h => h ▸ rfl, fun h => Char.toNat_inj.mp h⟩
  rw [isNameChar, Bool.or_eq_true, halphanum, hunderscore]
  omega

theorem isBlank_of_isNameChar {c : Char} (h : isNameChar c = true) : isBlank c = false := by
  have hrange := isNameChar_iff.mp h
  simp only [isBlank, Bool.or_eq_false_iff, Bool.and_eq_false_iff, decide_eq_false_iff_not,
    beq_eq_false_iff_ne]
  omega

inductive Statement
  /-- Gives a local variable a value. -/
  | bind (name expr : String)
  /-- Writes a slot of the card. -/
  | assign (slot expr : String)
  | other

namespace Statement

def equals : List Char := " = ".toList

def localStart : List Char := "local ".toList

def slotStart : List Char := "card.ability.extra.".toList

/-- What follows `start`. -/
def after? (start cs : List Char) : Option (List Char) :=
  if start.isPrefixOf cs then some (cs.drop start.length) else none

/-- The name before an equals sign and the expression after it. -/
def equation? (cs : List Char) : Option (String × String) :=
  if cs.takeWhile isNameChar = [] then none
  else (after? equals (cs.dropWhile isNameChar)).map fun expr =>
    (String.ofList (cs.takeWhile isNameChar), String.ofList expr)

/-- A local variable that is declared or set. -/
def binding? (cs : List Char) : Option (String × String) :=
  (equation? cs).or ((after? localStart cs).bind equation?)

/-- A slot that is written. -/
def assignment? (cs : List Char) : Option (String × String) :=
  (after? slotStart cs).bind equation?

def read (cs : List Char) : Statement :=
  match binding? cs, assignment? cs with
  | some (name, expr), _ => bind name expr
  | none, some (slot, expr) => assign slot expr
  | none, none => other

/-- The one statement of a text. An assignment to a slot is one whatever its expression is; any
other text is if it has one line. -/
def single? (text : String) : Option Statement :=
  match read text.toList with
  | assign slot expr => some (assign slot expr)
  | statement => if '\n' ∈ text.toList then none else some statement

end Statement

/-- The slots of the card and the local variables in scope. -/
structure Store (V : Type) where
  slots : String → V
  locals : String → Option V

/-- The slot that an expression reads. -/
def slotName? (expr : String) : Option String :=
  ((Statement.after? Statement.slotStart expr.toList).filter (·.all isNameChar)).map
    String.ofList

section Execution

variable {V : Type} (eval : Store V → String → V)

/-- The value of an expression. Slots and local variables are looked up; all other expressions are
left to `eval`. -/
def Store.value (s : Store V) (expr : String) : V :=
  match slotName? expr with
  | some slot => s.slots slot
  | none => (s.locals expr).getD (eval s expr)

def Statement.run (s : Store V) : Statement → Store V
  | bind name expr =>
    { s with locals := Function.update s.locals name (some (s.value eval expr)) }
  | assign slot expr => { s with slots := Function.update s.slots slot (s.value eval expr) }
  | other => s

def linesOf (text : String) : List (List Char) :=
  (splitWhere (· == '\n') text.toList).map trimStart

/-- Takes one line of a text. -/
def LineStep (text : String) (s s' : Store V) : Prop :=
  ∃ line ∈ linesOf text, s' = (Statement.read line).run eval s

def Executes (text : String) (s s' : Store V) : Prop :=
  match Statement.single? text with
  | some statement => s' = statement.run eval s
  | none => Relation.ReflTransGen (LineStep eval text) s s'

/-- Executes texts one after another. -/
inductive Runs : List String → Store V → Store V → Prop
  | done (s : Store V) : Runs [] s s
  | step {text : String} {texts : List String} {s between s' : Store V}
      (h : Executes eval text s between) (hrest : Runs texts between s') : Runs (text :: texts) s s'

theorem runs_append {texts rest : List String} {s s' : Store V} (h : Runs eval (texts ++ rest) s s') :
    ∃ between, Runs eval texts s between ∧ Runs eval rest between s' := by
  induction texts generalizing s with
  | nil => exact ⟨s, .done s, h⟩
  | cons text texts ih =>
    cases h with
    | step htext h =>
      obtain ⟨between, htexts, hrest⟩ := ih h
      exact ⟨between, .step htext htexts, hrest⟩

end Execution

namespace Statement

theorem after?_eq_some_iff {start cs rest : List Char} :
    after? start cs = some rest ↔ cs = start ++ rest := by
  unfold after?
  split
  · next h =>
    obtain ⟨more, rfl⟩ := List.isPrefixOf_iff_prefix.mp h
    simp
  · next h =>
    constructor
    · exact fun hnone => nomatch hnone
    · exact fun heq => absurd (List.isPrefixOf_iff_prefix.mpr ⟨rest, heq.symm⟩) h

/-- A list of characters that could be a name. -/
def IsName (cs : List Char) : Prop :=
  cs ≠ [] ∧ ∀ c ∈ cs, isNameChar c = true

theorem takeWhile_name (name : List Char) (h : ∀ c ∈ name, isNameChar c = true) {c : Char}
    (hc : isNameChar c = false) (rest : List Char) :
    (name ++ c :: rest).takeWhile isNameChar = name := by
  rw [List.takeWhile_append_of_pos h, List.takeWhile_cons_of_neg (by simp [hc]), List.append_nil]

theorem dropWhile_name (name : List Char) (h : ∀ c ∈ name, isNameChar c = true) {c : Char}
    (hc : isNameChar c = false) (rest : List Char) :
    (name ++ c :: rest).dropWhile isNameChar = c :: rest := by
  rw [List.dropWhile_append_of_pos h, List.dropWhile_cons_of_neg (by simp [hc])]

theorem equation?_eq_some_iff {cs : List Char} {name expr : String} :
    equation? cs = some (name, expr) ↔
      IsName name.toList ∧ cs = name.toList ++ (equals ++ expr.toList) := by
  constructor
  · intro h
    unfold equation? at h
    split at h
    · exact nomatch h
    · next hname =>
      obtain ⟨rest, hrest, heq⟩ := Option.map_eq_some_iff.mp h
      obtain ⟨rfl, rfl⟩ := Prod.mk.inj heq
      rw [String.toList_ofList, String.toList_ofList, ← after?_eq_some_iff.mp hrest]
      refine ⟨⟨hname, ?_⟩, List.takeWhile_append_dropWhile.symm⟩
      exact List.all_eq_true.mp List.all_takeWhile
  · rintro ⟨⟨hne, hname⟩, rfl⟩
    have hblank : isNameChar ' ' = false := by decide
    have htake := takeWhile_name _ hname hblank ('=' :: ' ' :: expr.toList)
    have hdrop := dropWhile_name _ hname hblank ('=' :: ' ' :: expr.toList)
    have hafter : after? equals (' ' :: '=' :: ' ' :: expr.toList) = some expr.toList :=
      after?_eq_some_iff.mpr rfl
    change equation? (name.toList ++ ' ' :: '=' :: ' ' :: expr.toList) = _
    rw [equation?, htake, hdrop, if_neg hne, hafter, Option.map_some, String.ofList_toList,
      String.ofList_toList]

theorem equation?_local {name : List Char} (h : IsName name) (rest : List Char) :
    equation? (localStart ++ (name ++ rest)) = none := by
  obtain ⟨c, cs, rfl⟩ := List.exists_cons_of_ne_nil h.1
  have hc : c ≠ '=' := by
    rintro rfl
    exact absurd (h.2 '=' List.mem_cons_self) (by decide)
  have hblank : isNameChar ' ' = false := by decide
  have hdrop := dropWhile_name "local".toList (List.all_eq_true.mp rfl) hblank (c :: cs ++ rest)
  have hafter : after? equals (' ' :: (c :: cs ++ rest)) = none := by
    rw [Option.eq_none_iff_forall_ne_some]
    intro more hmore
    exact hc (List.cons.inj (List.cons.inj (after?_eq_some_iff.mp hmore)).2).1
  change equation? ("local".toList ++ ' ' :: (c :: cs ++ rest)) = none
  unfold equation?
  rw [hdrop, hafter]
  exact ite_self _

theorem slotStart_eq : slotStart = ['c', 'a', 'r', 'd', '.'] ++ "ability.extra.".toList := by
  decide

theorem binding?_slot (rest : List Char) : binding? (slotStart ++ rest) = none := by
  rw [slotStart_eq, List.append_assoc]
  generalize "ability.extra.".toList ++ rest = tail
  have hdot : isNameChar '.' = false := by decide
  have hlocal : localStart = 'l' :: "ocal ".toList := by decide
  have hequation : equation? (['c', 'a', 'r', 'd'] ++ '.' :: tail) = none := by
    rw [equation?, dropWhile_name _ (List.all_eq_true.mp rfl) hdot]
    simp [after?, equals]
  rw [binding?]
  change (equation? (['c', 'a', 'r', 'd'] ++ '.' :: tail)).or _ = none
  rw [hequation, Option.none_or, after?, hlocal]
  rfl

end Statement

end JokerRules
