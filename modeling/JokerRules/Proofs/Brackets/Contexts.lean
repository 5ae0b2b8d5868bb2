import JokerRules.Proofs.Brackets.Definitions

/-! Contexts of a text in the code. Trimming and lowering a text leave its brackets as they are. A
context puts brackets around its text, and what fits into two contexts of different brackets closes
none of them. -/

namespace JokerRules.Brackets

open Text

theorem scan_map {f : Char → Char} (hf : ∀ c, classOf (f c) = classOf c) (s : Scan)
    (cs : List Char) : scan s (cs.map f) = scan s cs := by
  induction cs generalizing s with
  | nil => rfl
  | cons c cs ih =>
    rw [List.map_cons, scan, scan, hf]
    exact congrArg _ (funext ih)

theorem neutral_congr {a b : String}
    (h : ∀ bs, scan ⟨.code, bs⟩ a.toList = some ⟨.code, bs⟩ ↔
      scan ⟨.code, bs⟩ b.toList = some ⟨.code, bs⟩) : Neutral a ↔ Neutral b := by
  rw [neutral_iff, neutral_iff]
  exact h []

/-- Only a quote ends a literal. -/
theorem step_not_code {s t : Scan} {k : CharClass} (hs : s.mode ≠ .code)
    (hk : ∀ d, k ≠ .quote d) (h : step s k = some t) : t.mode ≠ .code := by
  obtain ⟨mode, opened⟩ := s
  cases mode with
  | code => exact absurd rfl hs
  | literal d => cases k <;> cases h <;> simp_all
  | escape d => cases k <;> cases h <;> simp_all

theorem code_of_scan {cs : List Char} {s : Scan} {bs : List Bracket}
    (hcs : ∀ c ∈ cs.takeWhile (classOf · ≠ .lineEnd), ∀ d, classOf c ≠ .quote d)
    (h : scan s cs = some ⟨.code, bs⟩) : s.mode = .code := by
  induction cs generalizing s with
  | nil =>
    cases h
    rfl
  | cons c cs ih =>
    by_contra hmode
    by_cases hend : classOf c = .lineEnd
    · simp [scan, hend, step_lineEnd, hmode] at h
    · rw [List.takeWhile_cons_of_pos (by simpa using hend)] at hcs
      obtain ⟨hc, hcs⟩ := List.forall_mem_cons.mp hcs
      obtain ⟨t, ht, h⟩ := Option.bind_eq_some_iff.mp h
      exact step_not_code hmode hc ht (ih hcs h)

theorem classOf_blank {c : Char} (h : isBlank c = true) (d : Delimiter) :
    classOf c ≠ .quote d := by
  intro hc
  have := eq_of_classOf_quote hc
  subst this
  cases d <;> simp [Delimiter.char, isBlank] at h

theorem scan_trailing {cs trail : List Char} (htrail : ∀ c ∈ trail, isBlank c = true) (s : Scan)
    (bs : List Bracket) :
    scan s (cs ++ trail) = some ⟨.code, bs⟩ ↔ scan s cs = some ⟨.code, bs⟩ := by
  rw [scan_append]
  constructor
  · intro h
    obtain ⟨t, ht, h⟩ := Option.bind_eq_some_iff.mp h
    have hmode : t.mode = .code := code_of_scan (fun c hc d =>
      classOf_blank (htrail c ((List.takeWhile_sublist _).subset hc)) d) h
    obtain ⟨mode, opened⟩ := t
    cases hmode
    rw [scan_blank htrail] at h
    rw [ht, h]
  · intro h
    rw [h, Option.bind_some, scan_blank htrail]

theorem blank_of_mem_takeWhile {cs : List Char} {c : Char} (h : c ∈ cs.takeWhile isBlank) :
    isBlank c = true :=
  List.all_eq_true.mp (List.all_takeWhile) c h

theorem neutral_trim_iff (text : String) : Neutral (trim text) ↔ Neutral text := by
  refine neutral_congr fun bs => ?_
  have hstart : scan ⟨.code, bs⟩ (trimStart text.toList) = scan ⟨.code, bs⟩ text.toList := by
    have hsplit : text.toList.takeWhile isBlank ++ trimStart text.toList = text.toList :=
      List.takeWhile_append_dropWhile
    rw [← hsplit, scan_append, scan_blank fun c hc => blank_of_mem_takeWhile hc, hsplit]
    rfl
  have hend : ∀ cs : List Char, trimEnd cs ++ (cs.reverse.takeWhile isBlank).reverse = cs := by
    intro cs
    rw [trimEnd, ← List.reverse_append, List.takeWhile_append_dropWhile, List.reverse_reverse]
  have htrail : ∀ c ∈ ((trimStart text.toList).reverse.takeWhile isBlank).reverse,
      isBlank c = true :=
    fun c hc => blank_of_mem_takeWhile (List.mem_reverse.mp hc)
  rw [trim, String.toList_ofList, ← scan_trailing htrail, hend, hstart]

theorem neutral_lowerAscii_iff (text : String) : Neutral (lowerAscii text) ↔ Neutral text := by
  refine neutral_congr fun bs => ?_
  rw [lowerAscii, String.toList_ofList, scan_map classOf_toLower]

theorem neutral_append_iff {a b : String} (ha : Neutral a) : Neutral (a ++ b) ↔ Neutral b := by
  refine neutral_congr fun bs => ?_
  rw [String.toList_append, scan_append, ha.scan, Option.bind_some]

theorem neutral_familyKey_iff {family : String} (h : Neutral family) (key : String) :
    Neutral (familyKey family key) ↔ Neutral key := by
  simp only [familyKey]
  split
  · exact neutral_trim_iff key
  · rw [neutral_append_iff h, neutral_trim_iff]

theorem neutral_centre_iff (raw : String) : Neutral (Effect.centre raw) ↔ WellBracketed raw := by
  have hcentres : Neutral "G.P_CENTERS." := neutral_fixed rfl
  have hfamily : Neutral "m_" := neutral_fixed rfl
  rw [Effect.centre, neutral_append_iff hcentres, neutral_familyKey_iff hfamily,
    neutral_lowerAscii_iff, neutral_iff]

theorem step_injective {mode : Mode} {k : CharClass} {bs bs' : List Bracket} {t t' : Scan}
    (h : step ⟨mode, bs⟩ k = some t) (h' : step ⟨mode, bs'⟩ k = some t') :
    t.mode = t'.mode ∧ (t.opened = t'.opened → bs = bs') := by
  cases mode with
  | code =>
    cases k with
    | closing b =>
      obtain ⟨rest, hrest, rfl⟩ := Option.map_eq_some_iff.mp h
      obtain ⟨rest', hrest', rfl⟩ := Option.map_eq_some_iff.mp h'
      refine ⟨rfl, fun hopened => ?_⟩
      cases bs <;> cases bs' <;> simp_all [close]
    | _ =>
      cases h
      cases h'
      simp
  | literal d => cases k <;> cases h <;> cases h' <;> simp
  | escape d => cases k <;> cases h <;> cases h' <;> simp

/-- The open brackets before a scan can be told from those after it. -/
theorem opened_injective {cs : List Char} {mode m₁ m₂ : Mode} {bs bs' r : List Bracket}
    (h : scan ⟨mode, bs⟩ cs = some ⟨m₁, r⟩) (h' : scan ⟨mode, bs'⟩ cs = some ⟨m₂, r⟩) :
    bs = bs' := by
  induction cs generalizing mode bs bs' with
  | nil =>
    cases h
    cases h'
    rfl
  | cons c cs ih =>
    obtain ⟨⟨m, o⟩, hstep, h⟩ := Option.bind_eq_some_iff.mp h
    obtain ⟨⟨m', o'⟩, hstep', h'⟩ := Option.bind_eq_some_iff.mp h'
    obtain ⟨hmode, hback⟩ := step_injective hstep hstep'
    dsimp only at hmode
    subst hmode
    exact hback (ih h h')

/-- In the context a text stands inside the brackets `s`. -/
def Surrounds (s : List Bracket) (context : String → String) : Prop :=
  ∀ text bs, scan ⟨.code, bs⟩ (context text).toList = some ⟨.code, bs⟩ →
    scan ⟨.code, s ++ bs⟩ text.toList = some ⟨.code, s ++ bs⟩

theorem Surrounds.comp {s t : List Bracket} {outer inner : String → String}
    (houter : Surrounds s outer) (hinner : Surrounds t inner) :
    Surrounds (t ++ s) fun text => outer (inner text) := by
  intro text bs h
  have h := hinner text (s ++ bs) (houter (inner text) bs h)
  rwa [← List.append_assoc] at h

theorem surrounds_indent (depth : Nat) : Surrounds [] (indent depth) :=
  fun text bs h => (scan_indent depth text bs bs).mp h

/-- No quote stands on the first line. -/
def Calm (cs : List Char) : Prop :=
  ∀ c ∈ cs.takeWhile (classOf · ≠ .lineEnd), ∀ d, classOf c ≠ .quote d

theorem calm_of_all {cs : List Char} (h : (cs.takeWhile (classOf · ≠ .lineEnd)).all
    (fun c => classOf c ≠ .quote .double && classOf c ≠ .quote .single) = true) : Calm cs := by
  intro c hc d hd
  have := List.all_eq_true.mp h c hc
  cases d <;> simp [hd] at this

theorem surrounds_fixed {s : List Bracket} {front back : List Char} (hcalm : Calm back)
    (hfront : scan ⟨.code, []⟩ front = some ⟨.code, s⟩)
    (hback : scan ⟨.code, s⟩ back = some ⟨.code, []⟩) :
    Surrounds s fun text => String.ofList front ++ text ++ String.ofList back := by
  intro text bs h
  have hfront := scan_inside hfront bs
  have hback := scan_inside hback bs
  simp only [Scan.inside, List.nil_append] at hfront hback
  rw [String.toList_append, String.toList_append, String.toList_ofList, String.toList_ofList,
    scan_append, scan_append, hfront, Option.bind_some] at h
  obtain ⟨⟨mode, opened⟩, ht, h⟩ := Option.bind_eq_some_iff.mp h
  have hmode := code_of_scan hcalm h
  cases hmode
  rw [ht, opened_injective h hback]

theorem surrounds_after {front : String} (h : Neutral front) :
    Surrounds [] fun text => front ++ text := by
  intro text bs hscan
  rwa [String.toList_append, scan_append, h.scan, Option.bind_some] at hscan

/-- A separator that ends a line and has no quote before that. -/
structure LineBreak (sep : String) : Prop where
  neutral : Neutral sep
  calm : ∀ rest : List Char, Calm (sep.toList ++ rest)

theorem lineBreak_feed : LineBreak "\n" :=
  ⟨neutral_fixed rfl, fun rest => by simp [Calm, classOf]⟩

theorem lineBreak_comma : LineBreak ",\n" :=
  ⟨neutral_fixed rfl, fun rest => by simp [Calm, classOf]⟩

theorem surrounds_intercalate {sep : String} (hsep : LineBreak sep) {front back : List String}
    (hfront : ∀ t ∈ front, Neutral t) (hback : ∀ t ∈ back, Neutral t) :
    Surrounds [] fun text => sep.intercalate (front ++ text :: back) := by
  have hcons : ∀ (t u : String) (ts : List String),
      (sep.intercalate (t :: u :: ts)).toList =
        t.toList ++ (sep.toList ++ (sep.intercalate (u :: ts)).toList) := by
    intro t u ts
    simp [String.toList_intercalate]
  intro text bs h
  rw [List.nil_append]
  dsimp only at h
  induction front with
  | nil =>
    cases back with
    | nil => simpa using h
    | cons b back =>
      have hrest := (neutral_intercalate hsep.neutral hback)
      rw [List.nil_append, hcons, scan_append] at h
      obtain ⟨⟨mode, opened⟩, ht, h⟩ := Option.bind_eq_some_iff.mp h
      have hmode := code_of_scan (hsep.calm _) h
      cases hmode
      rw [scan_append, hsep.neutral.scan, Option.bind_some, hrest.scan] at h
      rw [ht, h]
  | cons t front ih =>
    obtain ⟨ht, hfront⟩ := List.forall_mem_cons.mp hfront
    refine ih hfront ?_
    cases hrest : front ++ text :: back with
    | nil => simp at hrest
    | cons u ts =>
      rw [List.cons_append, hrest, hcons, scan_append, ht.scan, Option.bind_some, scan_append,
        hsep.neutral.scan, Option.bind_some] at h
      rwa [hrest] at *

theorem surrounds_unlines {front back : List String} (hfront : ∀ t ∈ front, Neutral t)
    (hback : ∀ t ∈ back, Neutral t) : Surrounds [] fun text => unlines (front ++ text :: back) :=
  surrounds_intercalate lineBreak_feed hfront hback

theorem surrounds_table {front back : List String} (hfront : ∀ t ∈ front, Neutral t)
    (hback : ∀ t ∈ back, Neutral t) :
    Surrounds [.curly] fun text => table (front ++ text :: back) := by
  have hindent : ∀ {ts : List String}, (∀ t ∈ ts, Neutral t) →
      ∀ t ∈ ts.map (indent 1), Neutral t := by
    intro ts hts t ht
    obtain ⟨u, hu, rfl⟩ := List.mem_map.mp ht
    exact (hts u hu).indent 1
  have houter : Surrounds [.curly] fun text => "\x7b\n" ++ text ++ "\n\x7d" :=
    surrounds_fixed (calm_of_all rfl) rfl rfl
  have hinner := (surrounds_intercalate lineBreak_comma (hindent hfront) (hindent hback)).comp
    (surrounds_indent 1)
  intro text bs h
  refine houter.comp hinner text bs ?_
  simpa [table] using h

theorem surrounds_closure : Surrounds [] closure :=
  (surrounds_fixed (calm_of_all rfl) rfl rfl).comp (surrounds_indent 1)

theorem step_two {a b : Bracket} (hab : a ≠ b) {s s' top : List Bracket} {mode : Mode}
    {k : CharClass} {t t' : Scan} (h : step ⟨mode, top ++ a :: s⟩ k = some t)
    (h' : step ⟨mode, top ++ b :: s'⟩ k = some t') :
    ∃ m top', step ⟨mode, top⟩ k = some ⟨m, top'⟩ ∧ t = ⟨m, top' ++ a :: s⟩ ∧
      t' = ⟨m, top' ++ b :: s'⟩ := by
  cases mode with
  | code =>
    cases k with
    | closing c =>
      obtain ⟨rest, hrest, rfl⟩ := Option.map_eq_some_iff.mp h
      obtain ⟨rest', hrest', rfl⟩ := Option.map_eq_some_iff.mp h'
      cases top with
      | nil => simp_all [close]
      | cons d top =>
        by_cases hd : d = c
        · simp_all [step, close]
        · simp [close, hd] at hrest
    | opening c =>
      cases h
      cases h'
      exact ⟨.code, c :: top, rfl, rfl, rfl⟩
    | _ =>
      cases h
      cases h'
      exact ⟨_, top, rfl, rfl, rfl⟩
  | literal d => cases k <;> cases h <;> cases h' <;> exact ⟨_, top, rfl, rfl, rfl⟩
  | escape d => cases k <;> cases h <;> cases h' <;> exact ⟨_, top, rfl, rfl, rfl⟩

/-- A text that fits into two different brackets closes neither. -/
theorem scan_two {a b : Bracket} (hab : a ≠ b) {s s' top : List Bracket} {mode : Mode}
    {cs : List Char} (h : scan ⟨mode, top ++ a :: s⟩ cs = some ⟨.code, a :: s⟩)
    (h' : scan ⟨mode, top ++ b :: s'⟩ cs = some ⟨.code, b :: s'⟩) :
    scan ⟨mode, top⟩ cs = some ⟨.code, []⟩ := by
  induction cs generalizing mode top with
  | nil =>
    simp only [scan, Option.some.injEq, Scan.mk.injEq, List.append_left_eq_self] at h ⊢
    exact h
  | cons c cs ih =>
    obtain ⟨t, hstep, h⟩ := Option.bind_eq_some_iff.mp h
    obtain ⟨t', hstep', h'⟩ := Option.bind_eq_some_iff.mp h'
    obtain ⟨m, top', hstep'', rfl, rfl⟩ := step_two hab hstep hstep'
    rw [scan, hstep'', Option.bind_some]
    exact ih h h'

theorem wellBracketed_of_two {a b : Bracket} (hab : a ≠ b) {s s' : List Bracket} {text : String}
    (h : scan ⟨.code, a :: s⟩ text.toList = some ⟨.code, a :: s⟩)
    (h' : scan ⟨.code, b :: s'⟩ text.toList = some ⟨.code, b :: s'⟩) : WellBracketed text := by
  unfold WellBracketed
  exact scan_two hab h h'

end JokerRules.Brackets
