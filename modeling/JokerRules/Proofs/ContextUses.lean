import JokerRules.Proofs.HoistedCode
import JokerRules.Proofs.TokenTemplates

/-! What code reads of the event that fires a rule. The event is the variable `context`, and the
code reads its fields. A text is closed if it does not stop in the middle of an access, so that
whatever follows it leaves its uses of the event as they are. -/

namespace JokerRules.ContextUses

open Text Brackets Tokens

/-- The variable that holds the event. -/
def context : Token := ['c', 'o', 'n', 't', 'e', 'x', 't']

/-- What the tokens read so far make of the next one. -/
inductive Reading
  | plain
  /-- After a point or a colon: the next token names a field. -/
  | field
  /-- After the variable of the event. -/
  | root
  /-- After the variable of the event and a point. -/
  | member
deriving DecidableEq

/-- A token that does not name a field. -/
def Reading.start (t : Token) : Reading :=
  if t = context then .root
  else if t = ['.'] ∨ t = [':'] then .field
  else .plain

def Reading.next : Reading → Token → Reading
  | .plain, t => .start t
  | .root, t => if t = ['.'] then .member else .start t
  | .field, _ | .member, _ => .plain

/-- A field of the event that is read, or the event itself. -/
abbrev Use := Option String

def Reading.found : Reading → Token → List Use
  | .member, t => [some (String.ofList t)]
  | .root, t => if t = ['.'] then [] else [none]
  | _, _ => []

def Reading.after (r : Reading) (ts : List Token) : Reading :=
  ts.foldl .next r

def usesFrom (r : Reading) : List Token → List Use
  | [] => []
  | t :: ts => r.found t ++ usesFrom (r.next t) ts

/-- An access that the end of the text cuts off. -/
def Reading.cutOff : Reading → List Use
  | .root | .member => [none]
  | _ => []

def uses (text : String) : List Use :=
  usesFrom .plain (tokens text) ++ (Reading.after .plain (tokens text)).cutOff

example : uses "f(context.a.context) + x.context == \"context.b\" and context" =
    [some "a", none] := by
  decide

theorem Reading.after_append (r : Reading) (ts us : List Token) :
    r.after (ts ++ us) = (r.after ts).after us :=
  List.foldl_append

theorem usesFrom_append (r : Reading) (ts us : List Token) :
    usesFrom r (ts ++ us) = usesFrom r ts ++ usesFrom (r.after ts) us := by
  induction ts generalizing r with
  | nil => rfl
  | cons t ts ih => rw [List.cons_append, usesFrom, usesFrom, ih, List.append_assoc]; rfl

/-- No access is cut off, and no literal. -/
structure Closed (text : String) : Prop where
  complete : Complete text
  done : Reading.after .plain (tokens text) = .plain

theorem Closed.uses_eq {text : String} (h : Closed text) :
    uses text = usesFrom .plain (tokens text) := by
  rw [uses, h.done]
  exact List.append_nil _

/-- A closed text that uses the event only in ways that are allowed. -/
structure Within (A : Use → Prop) (text : String) : Prop where
  closed : Closed text
  allowed : ∀ u ∈ uses text, A u

section Assembled

variable {P : String → Prop}

/-- The uses in the fixed parts, if no hole is entered in the middle of an access. -/
def fixedUses? (r : Reading) : List (Part P) → Option (List Use)
  | [] => if r = .plain then some [] else none
  | .fixed cs :: ps =>
    (fixedUses? (r.after (tokensFrom .code cs)) ps).map (usesFrom r (tokensFrom .code cs) ++ ·)
  | .hole _ _ :: ps => if r = .plain then fixedUses? .plain ps else none

def templateUses? (ps : List (Part P)) : Option (List Use) :=
  if fits ps then fixedUses? .plain ps else none

def holes : List (Part P) → List String
  | [] => []
  | .fixed _ :: ps => holes ps
  | .hole text _ :: ps => text :: holes ps

variable (hP : ∀ text, P text → Closed text)

include hP

theorem usesFrom_parts {r : Reading} {ps : List (Part P)} {us : List Use}
    (h : fixedUses? r ps = some us) :
    r.after (ps.flatMap (tokens ·.text)) = .plain ∧
      ∀ u, u ∈ usesFrom r (ps.flatMap (tokens ·.text)) ↔
        u ∈ us ∨ ∃ text ∈ holes ps, u ∈ uses text := by
  induction ps generalizing r us with
  | nil =>
    simp only [fixedUses?] at h
    split at h
    · next hr =>
      cases h
      exact ⟨hr, by simp [usesFrom, holes]⟩
    · cases h
  | cons p ps ih =>
    rw [List.flatMap_cons, Reading.after_append, usesFrom_append]
    cases p with
    | fixed cs =>
      obtain ⟨vs, hvs, rfl⟩ := Option.map_eq_some_iff.mp h
      have htokens : tokens (Part.fixed cs : Part P).text = tokensFrom .code cs := by
        rw [tokens, Part.text, String.toList_ofList]
      rw [htokens]
      obtain ⟨hafter, huses⟩ := ih hvs
      exact ⟨hafter, fun u => by rw [List.mem_append, huses, List.mem_append, or_assoc]; rfl⟩
    | hole text htext =>
      simp only [fixedUses?] at h
      split at h
      · next hr =>
        subst hr
        obtain ⟨hafter, huses⟩ := ih h
        have hclosed := hP text htext
        rw [Part.text, hclosed.done, ← hclosed.uses_eq]
        refine ⟨hafter, fun u => ?_⟩
        rw [List.mem_append, huses, holes]
        simp only [List.mem_cons, exists_eq_or_imp]
        tauto
      · cases h

theorem closed_template {ps : List (Part P)} {us : List Use} (h : templateUses? ps = some us) :
    Closed (Part.template ps) ∧
      ∀ u, u ∈ uses (Part.template ps) ↔ u ∈ us ∨ ∃ text ∈ holes ps, u ∈ uses text := by
  unfold templateUses? at h
  split at h
  · next hfits =>
    have hcomplete : ∀ text, P text → Complete text := fun text h => (hP text h).complete
    obtain ⟨hafter, huses⟩ := usesFrom_parts hP h
    rw [← tokens_template hcomplete ps hfits] at hafter huses
    have hclosed : Closed (Part.template ps) := ⟨complete_template hcomplete ps hfits, hafter⟩
    exact ⟨hclosed, by rwa [hclosed.uses_eq]⟩
  · cases h

end Assembled

theorem of_mem_holes {P : String → Prop} {ps : List (Part P)} {text : String} (h : text ∈ holes ps) :
    P text := by
  induction ps with
  | nil => cases h
  | cons p ps ih =>
    cases p with
    | fixed cs => exact ih h
    | hole t ht =>
      rcases List.mem_cons.mp h with rfl | h
      · exact ht
      · exact ih h

theorem uses_fixed {cs : List Char} {us : List Use}
    (h : templateUses? [(.fixed cs : Part Closed)] = some us) :
    Closed (String.ofList cs) ∧ ∀ u, u ∈ uses (String.ofList cs) ↔ u ∈ us := by
  simpa [holes] using closed_template (fun _ h => h) h

section Within

variable {A : Use → Prop}

theorem within_template_of (ps : List (Part (Within A))) {us : List Use}
    (h : templateUses? ps = some us) (hus : ∀ u ∈ us, A u) : Within A (Part.template ps) := by
  obtain ⟨hclosed, huses⟩ := closed_template (fun _ h => h.closed) h
  refine ⟨hclosed, fun u hu => ?_⟩
  rcases (huses u).mp hu with hu | ⟨text, htext, hu⟩
  · exact hus u hu
  · exact (of_mem_holes htext).allowed u hu

/-- Fixed parts that do not use the event. -/
theorem within_template (ps : List (Part (Within A))) (h : templateUses? ps = some []) :
    Within A (Part.template ps) :=
  within_template_of ps h (by simp)

theorem within_fixed {cs : List Char}
    (h : templateUses? [(.fixed cs : Part (Within A))] = some []) : Within A (String.ofList cs) :=
  within_template [.fixed cs] h

theorem Within.indent {text : String} (h : Within A text) (htext : Neutral text) (depth : Nat) :
    Within A (Text.indent depth text) := by
  have htokens := tokens_indent depth htext
  refine ⟨⟨complete_of_neutral (htext.indent depth), ?_⟩, ?_⟩
  · rw [htokens, h.closed.done]
  · rw [uses, htokens]
    exact h.allowed

end Within

end JokerRules.ContextUses
