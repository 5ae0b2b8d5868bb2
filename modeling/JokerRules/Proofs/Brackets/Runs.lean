import JokerRules.Proofs.Brackets.Levels

/-! Runs of letters outside brackets. Of a run that is still being read it is enough to know whether
it can become a joiner, which makes the operands readable character by character. -/

namespace JokerRules.Brackets

open Text

/-- What is known of the run that is read. -/
inductive Tail
  | spelled (cs : List Char)
  /-- It is no joiner as it stands. -/
  | ended
  /-- It has a character that no joiner has. -/
  | safe
deriving DecidableEq

def joinerLetters : List Char :=
  ['a', 'n', 'd', 'o', 'r']

theorem mem_joinerLetters (j : Joiner) : ∀ c ∈ j.word.toList, c ∈ joinerLetters := by
  cases j <;> simp [Joiner.word, joinerLetters]

namespace Tail

def Holds : Tail → List Char → Prop
  | spelled cs, run => run = cs
  | ended, run => isJoiner run = false
  | safe, run => ∃ c ∈ run, c ∉ joinerLetters

def mayEnd : Tail → Bool
  | spelled cs => !isJoiner cs
  | _ => true

def extend? (c : Char) : Tail → Option Tail
  | spelled cs => some (if c ∈ joinerLetters then spelled (cs ++ [c]) else safe)
  | ended => if c ∈ joinerLetters then none else some safe
  | safe => some safe

theorem Holds.not_joiner {tail : Tail} {run : List Char} (h : tail.Holds run)
    (hend : tail.mayEnd = true) : isJoiner run = false := by
  cases tail with
  | spelled cs =>
    obtain rfl : run = cs := h
    simpa [mayEnd] using hend
  | ended => exact h
  | safe =>
    obtain ⟨c, hc, hletter⟩ := h
    rw [Bool.eq_false_iff, ne_eq, isJoiner_iff]
    rintro ⟨j, rfl⟩
    exact hletter (mem_joinerLetters j c hc)

theorem Holds.extend {tail tail' : Tail} {run : List Char} {c : Char} (h : tail.Holds run)
    (hextend : tail.extend? c = some tail') : tail'.Holds (run ++ [c]) := by
  cases tail with
  | spelled cs =>
    obtain rfl : run = cs := h
    cases hextend
    split
    · rfl
    · next hc => exact ⟨c, by simp, hc⟩
  | ended =>
    simp only [extend?, Option.ite_none_left_eq_some, Option.some.injEq] at hextend
    obtain ⟨hc, rfl⟩ := hextend
    exact ⟨c, by simp, hc⟩
  | safe =>
    cases hextend
    obtain ⟨d, hd, hletter⟩ := h
    exact ⟨d, by simp [hd], hletter⟩

end Tail

/-- A place in a text: the scan up to it, and what is known of the run there. -/
abbrev Place := Scan × Tail

def Place.start : Place :=
  (⟨.code, []⟩, .spelled [])

/-- Reads a character, unless a run outside brackets would end as a joiner or become unknown. -/
def watch (p : Place) (c : Char) : Option Place :=
  (step p.1 (classOf c)).bind fun t =>
    if p.1.mode = .code ∧ isSeparator c then
      if p.1.opened = [] ∧ p.2.mayEnd = false then none else some (t, .spelled [])
    else if p.1.opened = [] then (p.2.extend? c).map fun tail => (t, tail)
    else some (t, p.2)

def watchAll (p : Place) : List Char → Option Place
  | [] => some p
  | c :: cs => (watch p c).bind (watchAll · cs)

theorem watchAll_append (p : Place) (cs ds : List Char) :
    watchAll p (cs ++ ds) = (watchAll p cs).bind (watchAll · ds) := by
  induction cs generalizing p with
  | nil => rfl
  | cons c cs ih =>
    simp only [List.cons_append, watchAll]
    cases watch p c with
    | none => rfl
    | some q => exact ih q

/-- From one place to another the text has no joiner outside brackets. -/
def Carries (p : Place) (cs : List Char) (q : Place) : Prop :=
  ∀ run, IsRun p.1.mode run → (p.1.opened = [] → p.2.Holds run) →
    ∃ done rest, Passes p.1 run cs done q.1 rest ∧ IsRun q.1.mode rest ∧
      (q.1.opened = [] → q.2.Holds rest) ∧
      level? p.1.opened.length done = some q.1.opened.length ∧
      ∀ l ∈ outer p.1.opened.length done, isJoiner l = false

theorem carries_nil (p : Place) : Carries p [] p :=
  fun run hrun htail => ⟨[], run, passes_nil p.1 run, hrun, htail, rfl, by simp [outer]⟩

theorem Carries.append {p q r : Place} {cs ds : List Char} (h : Carries p cs q) (h' : Carries q ds r) :
    Carries p (cs ++ ds) r := by
  intro run hrun htail
  obtain ⟨done, rest, hpasses, hrest, htail', hlevel, hjoinless⟩ := h run hrun htail
  obtain ⟨later, last, hpasses', hlast, htail'', hlevel', hjoinless'⟩ := h' rest hrest htail'
  refine ⟨done ++ later, last, hpasses.append hpasses', hlast, htail'', ?_, ?_⟩
  · rw [level?_append, hlevel, Option.bind_some, hlevel']
  · rw [outer_append hlevel]
    exact List.forall_mem_append.mpr ⟨hjoinless, hjoinless'⟩

theorem carries_char {p q : Place} {c : Char} (h : watch p c = some q) : Carries p [c] q := by
  obtain ⟨s, tail⟩ := p
  obtain ⟨t, hstep, h⟩ := Option.bind_eq_some_iff.mp h
  intro run hrun htail
  dsimp only at h hrun htail hstep ⊢
  split at h
  · next hc =>
    split at h
    · cases h
    · next hend =>
      cases h
      obtain ⟨sign, hpasses, hlevel, hsign⟩ := passes_separator hstep hc.1 hc.2 run
      have hmode : t.mode = .code := by rw [mode_of_step hstep, hc.1, nextMode_separator hc.2]
      have hrest : level? s.opened.length (finished run) = some s.opened.length := level?_finished hrun _
      refine ⟨_, [], hpasses, hmode ▸ isRun_nil, fun _ => rfl, ?_, ?_⟩
      · rw [level?_append, hrest, Option.bind_some, hlevel]
      · rw [outer_append hrest, List.forall_mem_append, outer_finished]
        refine ⟨fun l hl => ?_, fun l hl => hsign l (mem_of_mem_outer hl)⟩
        split at hl
        · next hlength =>
          have hopened : s.opened = [] := List.length_eq_zero_iff.mp hlength
          have hmay : tail.mayEnd = true := by
            by_contra hnot
            exact hend ⟨hopened, Bool.eq_false_iff.mpr hnot⟩
          rw [mem_finished hl]
          exact (htail hopened).not_joiner hmay
        · cases hl
  · next hc =>
    obtain ⟨hpasses, hrest, hopened⟩ := passes_inside hstep hc hrun
    split at h
    · next hnil =>
      obtain ⟨tail', htail', rfl⟩ := Option.map_eq_some_iff.mp h
      exact ⟨[], _, hpasses, hrest, fun _ => (htail hnil).extend htail', by rw [hopened]; rfl,
        by simp [outer]⟩
    · next hnil =>
      cases h
      exact ⟨[], _, hpasses, hrest, fun hnone => absurd (hopened.symm.trans hnone) hnil,
        by rw [hopened]; rfl, by simp [outer]⟩

theorem carries_all {p q : Place} {cs : List Char} (h : watchAll p cs = some q) : Carries p cs q := by
  induction cs generalizing p with
  | nil =>
    cases h
    exact carries_nil _
  | cons c cs ih =>
    obtain ⟨r, hr, h⟩ := Option.bind_eq_some_iff.mp h
    exact (carries_char hr).append (ih h)

theorem carries_enclosed {bs : List Bracket} (hbs : bs ≠ []) (tail : Tail) {text : String}
    (h : Neutral text) : Carries (⟨.code, bs⟩, tail) text.toList (⟨.code, bs⟩, tail) := by
  intro run hrun _
  obtain ⟨done, rest, hpasses, hrest, hlevel⟩ := h.exists_passes hrun
  obtain ⟨b, bs, rfl⟩ := List.exists_cons_of_ne_nil hbs
  obtain ⟨hinside, houter⟩ := inside_brackets hlevel bs.length
  rw [Nat.zero_add] at hinside houter
  refine ⟨done, rest, hpasses _, hrest, fun hnil => absurd hnil hbs, hinside, fun l hl => ?_⟩
  rw [List.length_cons, houter] at hl
  cases hl

theorem not_joiner_of_finished {run : List Char} (h : ∀ l ∈ finished run, isJoiner l = false) :
    isJoiner run = false := by
  cases run with
  | nil => rfl
  | cons c run => exact h (c :: run) (List.mem_singleton_self _)

/-- An operand outside brackets starts after a separator. -/
theorem carries_operand {text : String} (h : Operand text) :
    Carries Place.start text.toList (⟨.code, []⟩, .ended) := by
  intro run hrun htail
  obtain rfl : run = [] := htail rfl
  obtain ⟨done, rest, hpasses, hrest, hlevel⟩ := h.neutral.exists_passes hrun
  have hjoinless := h.joinless
  rw [(hpasses []).lexemes_eq, outer_append hlevel, List.forall_mem_append, outer_finished,
    if_pos rfl] at hjoinless
  exact ⟨done, rest, hpasses [], hrest, fun _ => not_joiner_of_finished hjoinless.2, hlevel,
    hjoinless.1⟩

end JokerRules.Brackets
