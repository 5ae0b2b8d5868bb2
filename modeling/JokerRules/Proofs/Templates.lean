/-! Templates: texts put together from fixed parts and holes. What may fill a hole is said by the
hole itself, so that a question about all texts of a template can be decided by looking at its fixed
parts. -/

namespace JokerRules

universe u v

/-- A part of a template. What is known of the text in a hole is a value of `Known` at this text. -/
inductive Part (Known : String → Sort u) : Type u
  | fixed (cs : List Char)
  | hole (text : String) (known : Known text)

namespace Part

variable {Known : String → Sort u} {S : Type v}

@[reducible]
def text : Part Known → String
  | fixed cs => String.ofList cs
  | hole t _ => t

/-- The parts one after the other, joined from the left. -/
@[reducible]
def template : List (Part Known) → String
  | [] => ""
  | [p] => p.text
  | p :: q :: ps => ps.foldl (fun text r => text ++ r.text) (p.text ++ q.text)

theorem toList_foldl (ps : List (Part Known)) (front : String) :
    (ps.foldl (fun text p => text ++ p.text) front).toList =
      front.toList ++ ps.flatMap (·.text.toList) := by
  induction ps generalizing front with
  | nil => simp
  | cons p ps ih => simp [ih]

theorem toList_template (ps : List (Part Known)) :
    (template ps).toList = ps.flatMap (·.text.toList) := by
  match ps with
  | [] => rfl
  | [p] => simp
  | p :: q :: ps => simp [toList_foldl]

/-- Walks over the parts, as long as each of them can be passed from where the one before it led. -/
def walk (pass : S → Part Known → Option S) (s : S) : List (Part Known) → Option S
  | [] => some s
  | p :: ps => (pass s p).bind (walk pass · ps)

/-- What each part does to a state, whatever fills the holes, the text of the template does
as well. -/
theorem walk_sound {pass : S → Part Known → Option S} (Leads : S → List Char → S → Prop)
    (hnil : ∀ s, Leads s [] s)
    (happend : ∀ {s t u xs ys}, Leads s xs t → Leads t ys u → Leads s (xs ++ ys) u)
    (hpass : ∀ {s t p}, pass s p = some t → Leads s p.text.toList t) {ps : List (Part Known)} {s t : S}
    (h : walk pass s ps = some t) : Leads s (template ps).toList t := by
  rw [toList_template]
  induction ps generalizing s with
  | nil =>
    cases h
    exact hnil _
  | cons p ps ih =>
    obtain ⟨r, hr, h⟩ := Option.bind_eq_some_iff.mp h
    exact happend (hpass hr) (ih h)

end Part

end JokerRules
