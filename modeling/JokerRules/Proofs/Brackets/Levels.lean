import JokerRules.Condition
import JokerRules.Proofs.Brackets.Lexemes

/-! Levels of lexemes. The scan of a text keeps as many brackets as its lexemes open and do not
close, so the lexemes outside all brackets can be told from the lexemes alone. -/

namespace JokerRules.Brackets

open Text

def isJoiner (l : Lexeme) : Bool :=
  l == Joiner.and.word.toList || l == Joiner.or.word.toList

theorem isJoiner_iff {l : Lexeme} : isJoiner l = true ↔ ∃ j : Joiner, l = j.word.toList := by
  rw [isJoiner, Bool.or_eq_true, beq_iff_eq, beq_iff_eq]
  constructor
  · rintro (h | h)
    · exact ⟨.and, h⟩
    · exact ⟨.or, h⟩
  · rintro ⟨j, rfl⟩
    cases j
    · exact .inl rfl
    · exact .inr rfl

def opens : Lexeme → Bool
  | [c] => match classOf c with
    | .opening _ => true
    | _ => false
  | _ => false

def closes : Lexeme → Bool
  | [c] => match classOf c with
    | .closing _ => true
    | _ => false
  | _ => false

def levelAfter (n : Nat) (l : Lexeme) : Nat :=
  if opens l then n + 1 else if closes l then n - 1 else n

/-- How many brackets are open after lexemes that close no bracket too many. -/
def level? : Nat → List Lexeme → Option Nat
  | n, [] => some n
  | n, l :: ls => if n = 0 ∧ closes l then none else level? (levelAfter n l) ls

/-- The lexemes that stand outside all brackets. -/
def outer : Nat → List Lexeme → List Lexeme
  | _, [] => []
  | n, l :: ls => (if n = 0 then [l] else []) ++ outer (levelAfter n l) ls

theorem level?_append (n : Nat) (xs ys : List Lexeme) :
    level? n (xs ++ ys) = (level? n xs).bind (level? · ys) := by
  induction xs generalizing n with
  | nil => rfl
  | cons l xs ih =>
    rw [List.cons_append, level?, level?]
    split
    · rfl
    · exact ih _

theorem outer_append {n m : Nat} {xs : List Lexeme} (h : level? n xs = some m) (ys : List Lexeme) :
    outer n (xs ++ ys) = outer n xs ++ outer m ys := by
  induction xs generalizing n with
  | nil =>
    cases h
    rfl
  | cons l xs ih =>
    rw [level?] at h
    split at h
    · cases h
    · rw [List.cons_append, outer, outer, ih h, List.append_assoc]

theorem mem_of_mem_outer {n : Nat} {l : Lexeme} {ls : List Lexeme} (h : l ∈ outer n ls) : l ∈ ls := by
  induction ls generalizing n with
  | nil => exact h
  | cons m ls ih =>
    rcases List.mem_append.mp h with h | h
    · split at h
      · exact List.mem_singleton.mp h ▸ List.mem_cons_self
      · cases h
    · exact List.mem_cons_of_mem m (ih h)

/-- Inside further brackets the levels are higher, and nothing stands outside. -/
theorem inside_brackets {n m : Nat} {ls : List Lexeme} (h : level? n ls = some m) (k : Nat) :
    level? (n + (k + 1)) ls = some (m + (k + 1)) ∧ outer (n + (k + 1)) ls = [] := by
  induction ls generalizing n with
  | nil =>
    cases h
    exact ⟨rfl, rfl⟩
  | cons l ls ih =>
    rw [level?] at h
    split at h
    · cases h
    · next hclosed =>
      have hlevel : levelAfter (n + (k + 1)) l = levelAfter n l + (k + 1) := by
        unfold levelAfter
        split
        · omega
        · split
          · next hcloses =>
            have : n ≠ 0 := fun hn => hclosed ⟨hn, hcloses⟩
            omega
          · rfl
      have hpositive : n + (k + 1) ≠ 0 := by omega
      rw [level?, outer, if_neg (fun hn => hpositive hn.1), if_neg hpositive, hlevel]
      exact ih h

/-- Reading a text finishes some lexemes and leaves a run behind, whatever comes after it. -/
structure Passes (s : Scan) (run cs : List Char) (done : List Lexeme) (t : Scan)
    (rest : List Char) : Prop where
  scanned : scan s cs = some t
  lexed : ∀ more, lexemesFrom s.mode run (cs ++ more) = done ++ lexemesFrom t.mode rest more

/-- A run that can be read in a mode: it is no bracket, and a literal has begun it. -/
structure IsRun (mode : Mode) (run : List Char) : Prop where
  not_opens : opens run = false
  not_closes : closes run = false
  begun : mode ≠ .code → run ≠ []

theorem isRun_nil : IsRun .code [] :=
  ⟨rfl, rfl, fun h => absurd rfl h⟩

theorem passes_nil (s : Scan) (run : List Char) : Passes s run [] [] s run :=
  ⟨rfl, fun _ => rfl⟩

theorem Passes.append {s t u : Scan} {run rest last cs ds : List Char} {done later : List Lexeme}
    (h : Passes s run cs done t rest) (h' : Passes t rest ds later u last) :
    Passes s run (cs ++ ds) (done ++ later) u last := by
  refine ⟨by rw [scan_append, h.scanned, Option.bind_some, h'.scanned], fun more => ?_⟩
  rw [List.append_assoc, h.lexed, h'.lexed, List.append_assoc]

theorem levelAfter_run {mode : Mode} {run : List Char} (h : IsRun mode run) (n : Nat) :
    levelAfter n run = n := by
  rw [levelAfter, h.not_opens, h.not_closes]
  rfl

theorem level?_finished {mode : Mode} {run : List Char} (h : IsRun mode run) (n : Nat) :
    level? n (finished run) = some n := by
  unfold finished
  split
  · rfl
  · rw [level?, levelAfter_run h, if_neg (by simp [h.not_closes]), level?]

theorem mem_finished {l : Lexeme} {run : List Char} (h : l ∈ finished run) : l = run := by
  unfold finished at h
  split at h
  · cases h
  · exact List.mem_singleton.mp h

theorem outer_finished (run : List Char) (n : Nat) :
    outer n (finished run) = if n = 0 then finished run else [] := by
  unfold finished
  split <;> simp [outer]

theorem isJoiner_sign (c : Char) : isJoiner [c] = false := by
  simp [isJoiner, Joiner.word]

theorem level?_sign {bs : List Bracket} {t : Scan} {c : Char}
    (h : step ⟨.code, bs⟩ (classOf c) = some t) : level? bs.length [[c]] = some t.opened.length := by
  cases hc : classOf c with
  | opening b =>
    rw [hc] at h
    cases h
    simp [level?, levelAfter, opens, closes, hc]
  | closing b =>
    rw [hc] at h
    obtain ⟨rest, hrest, rfl⟩ := Option.map_eq_some_iff.mp h
    cases bs with
    | nil => cases hrest
    | cons a bs =>
      simp only [close, Option.ite_none_right_eq_some, Option.some.injEq] at hrest
      simp [level?, levelAfter, opens, closes, hc, hrest.2]
  | _ =>
    rw [hc] at h
    cases h
    simp [level?, levelAfter, opens, closes, hc]

theorem passes_separator {s t : Scan} {c : Char} (h : step s (classOf c) = some t)
    (hs : s.mode = .code) (hc : isSeparator c = true) (run : List Char) :
    ∃ sign, Passes s run [c] (finished run ++ sign) t [] ∧
      level? s.opened.length sign = some t.opened.length ∧ ∀ l ∈ sign, isJoiner l = false := by
  obtain ⟨mode, bs⟩ := s
  obtain rfl : mode = .code := hs
  have hscan : scan ⟨.code, bs⟩ [c] = some t := by rw [scan, h]; rfl
  have hmode : t.mode = .code := (mode_of_step h).trans (nextMode_separator hc)
  by_cases hblank : isBlank c = true
  · obtain rfl : t = ⟨.code, bs⟩ := by
      rw [step_blank hblank] at h
      exact (Option.some.inj h).symm
    exact ⟨[], ⟨hscan, fun more => by simpa using lexemesFrom_blank hblank run more⟩, rfl, by simp⟩
  · refine ⟨[[c]], ⟨hscan, fun more => ?_⟩, level?_sign h, by simp [isJoiner_sign]⟩
    rw [hmode, List.singleton_append, lexemesFrom_sign hblank (standsAlone_of_not_isBlank hc hblank),
      List.append_assoc, List.singleton_append]

theorem not_bracket {c : Char} (h : standsAlone c = false) : opens [c] = false ∧ closes [c] = false := by
  unfold standsAlone at h
  unfold opens closes
  cases hc : classOf c <;> simp_all

theorem passes_inside {s t : Scan} {c : Char} (h : step s (classOf c) = some t)
    (hc : ¬(s.mode = .code ∧ isSeparator c = true)) {run : List Char} (hrun : IsRun s.mode run) :
    Passes s run [c] [] t (run ++ [c]) ∧ IsRun t.mode (run ++ [c]) ∧ t.opened = s.opened := by
  have hscan : scan s [c] = some t := by rw [scan, h]; rfl
  have hmode := mode_of_step h
  have halone : ¬(s.mode = .code ∧ standsAlone c = true) :=
    fun ha => hc ⟨ha.1, by simp [isSeparator, ha.2]⟩
  refine ⟨⟨hscan, fun more => ?_⟩, ?_, ?_⟩
  · rw [List.singleton_append, lexemesFrom_inside hc, hmode, List.nil_append]
  · cases run with
    | cons x run =>
      have hlonger : run ++ [c] ≠ [] := List.append_ne_nil_of_right_ne_nil run (List.cons_ne_nil c [])
      obtain ⟨y, ys, hys⟩ := List.exists_cons_of_ne_nil hlonger
      exact ⟨by simp [hys, opens], by simp [hys, closes], by simp⟩
    | nil =>
      have hcode : s.mode = .code := by
        by_contra hliteral
        exact hrun.begun hliteral rfl
      obtain ⟨hopens, hcloses⟩ := not_bracket (Bool.eq_false_iff.mpr fun ha => halone ⟨hcode, ha⟩)
      exact ⟨hopens, hcloses, fun _ => List.cons_ne_nil c []⟩
  · obtain ⟨mode, bs⟩ := s
    cases mode with
    | code =>
      have hsign : standsAlone c = false := Bool.eq_false_iff.mpr fun ha => halone ⟨rfl, ha⟩
      cases hclass : classOf c with
      | opening b => simp [standsAlone, hclass] at hsign
      | closing b => simp [standsAlone, hclass] at hsign
      | _ => rw [hclass] at h; cases h; rfl
    | literal d => cases hclass : classOf c <;> rw [hclass] at h <;> cases h <;> rfl
    | escape d => cases hclass : classOf c <;> rw [hclass] at h <;> cases h <;> rfl

theorem exists_passes {s t : Scan} {cs : List Char} (h : scan s cs = some t) {run : List Char}
    (hrun : IsRun s.mode run) :
    ∃ done rest, Passes s run cs done t rest ∧ IsRun t.mode rest ∧
      level? s.opened.length done = some t.opened.length := by
  induction cs generalizing s run with
  | nil =>
    cases h
    exact ⟨[], run, passes_nil _ run, hrun, rfl⟩
  | cons c cs ih =>
    obtain ⟨u, hu, h⟩ := Option.bind_eq_some_iff.mp h
    have hfirst : ∃ done rest, Passes s run [c] done u rest ∧ IsRun u.mode rest ∧
        level? s.opened.length done = some u.opened.length := by
      by_cases hc : s.mode = .code ∧ isSeparator c = true
      · obtain ⟨sign, hpasses, hlevel, -⟩ := passes_separator hu hc.1 hc.2 run
        have hmode : u.mode = .code := by
          rw [mode_of_step hu, hc.1, nextMode_separator hc.2]
        refine ⟨_, [], hpasses, hmode ▸ isRun_nil, ?_⟩
        rw [level?_append, level?_finished hrun, Option.bind_some, hlevel]
      · obtain ⟨hpasses, hrest, hopened⟩ := passes_inside hu hc hrun
        exact ⟨[], run ++ [c], hpasses, hrest, by rw [hopened]; rfl⟩
    obtain ⟨done, rest, hpasses, hrest, hlevel⟩ := hfirst
    obtain ⟨later, last, hpasses', hlast, hlevel'⟩ := ih h hrest
    refine ⟨done ++ later, last, hpasses.append hpasses', hlast, ?_⟩
    rw [level?_append, hlevel, Option.bind_some, hlevel']

/-- The text is neutral, and no lexeme outside its brackets is a joiner. -/
structure Operand (text : String) : Prop where
  neutral : Neutral text
  joinless : ∀ l ∈ outer 0 (lexemes text), isJoiner l = false

theorem Neutral.exists_passes {text : String} (h : Neutral text) {run : List Char}
    (hrun : IsRun .code run) :
    ∃ done rest, (∀ bs, Passes ⟨.code, bs⟩ run text.toList done ⟨.code, bs⟩ rest) ∧ IsRun .code rest ∧
      level? 0 done = some 0 := by
  obtain ⟨done, rest, hpasses, hrest, hlevel⟩ := Brackets.exists_passes (h.scan []) hrun
  exact ⟨done, rest, fun bs => ⟨h.scan bs, hpasses.lexed⟩, hrest, hlevel⟩

theorem Passes.lexemes_eq {text : String} {done : List Lexeme} {t : Scan} {rest : List Char}
    (h : Passes ⟨.code, []⟩ [] text.toList done t rest) : lexemes text = done ++ finished rest := by
  have hwhole := h.lexed []
  rwa [List.append_nil, lexemesFrom] at hwhole

theorem level?_lexemes {text : String} (h : Neutral text) : level? 0 (lexemes text) = some 0 := by
  obtain ⟨done, rest, hpasses, hrest, hlevel⟩ := h.exists_passes isRun_nil
  rw [(hpasses []).lexemes_eq, level?_append, hlevel, Option.bind_some, level?_finished hrest]

end JokerRules.Brackets
