import JokerRules.Proofs.Brackets.Runs

/-! Joiners outside brackets. A text is an operand if it is neutral and none of its lexemes outside
all brackets is `and` or `or`. Whether a text that is put together from parts is an operand is found
out by reading its fixed parts. -/

namespace JokerRules.Brackets

open Text

/-- A text without blanks, brackets, quotes and commas. -/
def Solid (text : String) : Prop :=
  ∀ c ∈ text.toList, classOf c = .plain ∧ isSeparator c = false

theorem solid_fixed {cs : List Char}
    (h : cs.all (fun c => classOf c == .plain && !isSeparator c) = true) : Solid (String.ofList cs) := by
  intro c hc
  simpa using List.all_eq_true.mp h c (by simpa using hc)

/-- What may fill a hole: a neutral text inside brackets, an operand, or a text that goes on with a
run that is safe already. -/
inductive Segment.Filler (text : String) : Type
  | enclosed (h : Neutral text)
  | operand (h : Operand text)
  | word (h : Solid text)

abbrev Segment := Part Segment.Filler

namespace Segment

abbrev enclosed (text : String) (h : Neutral text) : Segment :=
  Part.hole text (.enclosed h)

abbrev operand (text : String) (h : Operand text) : Segment :=
  Part.hole text (.operand h)

abbrev word (text : String) (h : Solid text) : Segment :=
  Part.hole text (.word h)

def watch (p : Place) : Segment → Option Place
  | Part.fixed cs => watchAll p cs
  | Part.hole _ (.enclosed _) => if p.1.mode = .code ∧ p.1.opened ≠ [] then some p else none
  | Part.hole _ (.operand _) => if p = Place.start then some (⟨.code, []⟩, .ended) else none
  | Part.hole _ (.word _) => if p = (⟨.code, []⟩, .safe) then some p else none

end Segment

theorem watchAll_solid {cs : List Char} (h : ∀ c ∈ cs, classOf c = .plain ∧ isSeparator c = false) :
    watchAll (⟨.code, []⟩, .safe) cs = some (⟨.code, []⟩, .safe) := by
  induction cs with
  | nil => rfl
  | cons c cs ih =>
    obtain ⟨⟨hclass, hseparator⟩, hcs⟩ := List.forall_mem_cons.mp h
    have hfirst : watch (⟨.code, []⟩, .safe) c = some (⟨.code, []⟩, .safe) := by
      simp [watch, hclass, hseparator, step, Tail.extend?]
    rw [watchAll, hfirst]
    exact ih hcs

theorem Segment.carries {p q : Place} {g : Segment} (h : g.watch p = some q) :
    Carries p g.text.toList q := by
  rcases g with cs | ⟨t, ⟨ht⟩ | ⟨ht⟩ | ⟨ht⟩⟩
  · rw [Part.text, String.toList_ofList]
    exact carries_all h
  · simp only [watch, Option.ite_none_right_eq_some, Option.some.injEq] at h
    obtain ⟨⟨hmode, hopened⟩, rfl⟩ := h
    obtain ⟨⟨mode, bs⟩, tail⟩ := p
    obtain rfl : mode = .code := hmode
    exact carries_enclosed hopened tail ht
  · simp only [watch, Option.ite_none_right_eq_some, Option.some.injEq] at h
    obtain ⟨rfl, rfl⟩ := h
    exact carries_operand ht
  · simp only [watch, Option.ite_none_right_eq_some, Option.some.injEq] at h
    obtain ⟨rfl, rfl⟩ := h
    exact carries_all (watchAll_solid ht)

def Place.mayEnd (p : Place) : Bool :=
  p.1 = ⟨.code, []⟩ && p.2.mayEnd

theorem Carries.operand {text : String} {q : Place} (h : Carries Place.start text.toList q)
    (hq : q.mayEnd = true) : Operand text := by
  obtain ⟨s, tail⟩ := q
  simp only [Place.mayEnd, Bool.and_eq_true, decide_eq_true_eq] at hq
  obtain ⟨rfl, hend⟩ := hq
  obtain ⟨done, rest, hpasses, hrest, htail, hlevel, hjoinless⟩ := h [] isRun_nil fun _ => rfl
  have hneutral : WellBracketed text := hpasses.scanned
  refine ⟨hneutral.neutral, ?_⟩
  have houter : outer 0 (done ++ finished rest) = outer 0 done ++ outer 0 (finished rest) :=
    outer_append hlevel _
  rw [hpasses.lexemes_eq, houter]
  refine List.forall_mem_append.mpr ⟨hjoinless, fun l hl => ?_⟩
  rw [mem_finished (mem_of_mem_outer hl)]
  exact (htail rfl).not_joiner hend

/-- The fixed parts show whether the text of a template is an operand. -/
def isOperand (gs : List Segment) : Bool :=
  (Part.walk Segment.watch Place.start gs).any Place.mayEnd

theorem operand_joined (gs : List Segment) (h : isOperand gs = true) :
    Operand (Part.template gs) := by
  obtain ⟨q, hq, hend⟩ := (Option.any_eq_true ..).mp h
  exact (Part.walk_sound Carries carries_nil Carries.append Segment.carries hq).operand hend

theorem operand_fixed {cs : List Char} (h : (watchAll Place.start cs).any Place.mayEnd = true) :
    Operand (String.ofList cs) := by
  refine operand_joined [.fixed cs] ?_
  simpa [isOperand, Part.walk, Segment.watch] using h

example : Operand "not next(f(\" and \"), a or b) == 1" := operand_fixed rfl

theorem watch_literal {mode : Mode} (hmode : mode ≠ .code) (bs : List Bracket) (c : Char) :
    watch (⟨mode, bs⟩, .safe) c = (step ⟨mode, bs⟩ (classOf c)).map fun t => (t, .safe) := by
  unfold watch
  cases step ⟨mode, bs⟩ (classOf c) with
  | none => rfl
  | some t => simp [hmode, Tail.extend?]

theorem watchAll_escapeChar (d : Delimiter) (c : Char) :
    watchAll (⟨.literal d, []⟩, .safe) (escapeChar d.char c) = some (⟨.literal d, []⟩, .safe) := by
  have hlast : ∀ {mode : Mode} {x : Char}, mode ≠ .code →
      scan ⟨mode, []⟩ [x] = some ⟨.literal d, []⟩ →
        watchAll (⟨mode, []⟩, .safe) [x] = some (⟨.literal d, []⟩, .safe) := by
    intro mode x hmode hx
    have hstep : step ⟨mode, []⟩ (classOf x) = some ⟨.literal d, []⟩ := by simpa [scan] using hx
    simp [watchAll, watch_literal hmode, hstep]
  have hescaped : ∀ {x : Char}, scan ⟨.literal d, []⟩ ['\\', x] = some ⟨.literal d, []⟩ →
      watchAll (⟨.literal d, []⟩, .safe) ['\\', x] = some (⟨.literal d, []⟩, .safe) := by
    intro x hx
    have hback : watch (⟨.literal d, []⟩, .safe) '\\' = some (⟨.escape d, []⟩, .safe) :=
      watch_literal (by simp) [] '\\'
    rw [watchAll, hback]
    exact hlast (by simp) hx
  have hscan := scan_escapeChar d c []
  unfold escapeChar at hscan ⊢
  split_ifs at hscan ⊢
  · exact hescaped hscan
  · exact hescaped hscan
  · exact hescaped hscan
  · exact hescaped hscan
  · exact hescaped hscan
  · exact hlast (by simp) hscan

theorem operand_quoteWith (d : Delimiter) (s : String) : Operand (quoteWith d.char s) := by
  have hopen : watch Place.start d.char = some (⟨.literal d, []⟩, .safe) := by cases d <;> rfl
  have hclose : watchAll (⟨.literal d, []⟩, .safe) [d.char] = some (⟨.code, []⟩, .safe) := by
    cases d <;> rfl
  have hbody : ∀ cs : List Char, watchAll (⟨.literal d, []⟩, .safe) (cs.flatMap (escapeChar d.char)) =
      some (⟨.literal d, []⟩, .safe) := by
    intro cs
    induction cs with
    | nil => rfl
    | cons c cs ih => rw [List.flatMap_cons, watchAll_append, watchAll_escapeChar, Option.bind_some, ih]
  refine operand_fixed ?_
  rw [watchAll, hopen, Option.bind_some, watchAll_append, hbody, Option.bind_some, hclose]
  rfl

theorem operand_quote (s : String) : Operand (quote s) :=
  operand_quoteWith .double s

theorem operand_letterless {cs : List Char}
    (h : ∀ c ∈ cs, classOf c = .plain ∧ isSeparator c = false ∧ c ∉ joinerLetters) :
    Operand (String.ofList cs) := by
  cases cs with
  | nil => exact operand_fixed rfl
  | cons c cs =>
    obtain ⟨⟨hclass, hseparator, hletter⟩, hcs⟩ := List.forall_mem_cons.mp h
    have hfirst : watch Place.start c = some (⟨.code, []⟩, .safe) := by
      simp [watch, Place.start, hclass, hseparator, hletter, step, Tail.extend?]
    refine operand_fixed ?_
    rw [watchAll, hfirst, Option.bind_some, watchAll_solid fun e he => ⟨(hcs e he).1, (hcs e he).2.1⟩]
    rfl

end JokerRules.Brackets
