import JokerRules.Proofs.SharedOdds

/-! The names that a draft gives out. The names of slots and those of local variables are two series
with counts of their own. In each of them a name tells its stem and its number as long as no stem
ends in a digit, and it still tells them with the ending of a bound behind it. -/

namespace JokerRules.Draft

open Names (EndsInBound Unnumbered)

inductive Series
  | slots
  | locals

def Series.names (d : Draft) : Series → Names
  | slots => d.slotNames
  | locals => d.localNames

/-- How many names of a stem the draft has given out in the series. -/
def Series.count (series : Series) (d : Draft) (stem : String) : Nat :=
  (series.names d).getD stem 0

structure Taken where
  stem : String
  name : String
deriving DecidableEq

/-- The name that a call takes from the series. Odds take the name of a slot if their denominator is
new. -/
def Call.taken? (d : Draft) : Series → Call → Option Taken
  | .slots, slotName stem => some ⟨stem, (d.nextSlotName stem).1⟩
  | .slots, odds numerator denominator =>
    if d.odds.any (·.denominator == proper denominator) then none
    else some ⟨"odds", (d.shareOdds numerator denominator).1⟩
  | .locals, localName stem => some ⟨stem, (d.nextLocalName stem).1⟩
  | _, _ => none

/-- The names that calls take from the series, one after another. -/
def taken (series : Series) (d : Draft) : List Call → List Taken
  | [] => []
  | c :: calls => (c.taken? d series).toList ++ taken series (c.perform d).2 calls

/-- How many of the names have the stem. -/
def uses (ts : List Taken) (stem : String) : Nat :=
  ts.countP (·.stem = stem)

theorem shareOdds_known {d : Draft} (numerator : UInt32) {denominator : UInt32}
    (h : d.odds.any (·.denominator == proper denominator) = true) :
    (d.shareOdds numerator denominator).2 = d := by
  have hproper : (if denominator = 0 then 1 else denominator) = proper denominator := rfl
  obtain ⟨o, hfind⟩ := Option.isSome_iff_exists.mp (List.find?_isSome.mpr (List.any_eq_true.mp h))
  simp only [shareOdds, hproper, hfind]

theorem shareOdds_new {d : Draft} (numerator : UInt32) {denominator : UInt32}
    (h : ¬d.odds.any (·.denominator == proper denominator) = true) :
    (d.shareOdds numerator denominator).1 = (d.slotNames.next "odds").1 ∧
    (d.shareOdds numerator denominator).2.slotNames = (d.slotNames.next "odds").2 ∧
    (d.shareOdds numerator denominator).2.localNames = d.localNames := by
  have hproper : (if denominator = 0 then 1 else denominator) = proper denominator := rfl
  have hfind : d.odds.find? (·.denominator == proper denominator) = none := by
    simpa using h
  simp only [shareOdds, hproper, hfind]
  exact ⟨rfl, rfl, rfl⟩

theorem localNames_shareOdds (d : Draft) (numerator denominator : UInt32) :
    (d.shareOdds numerator denominator).2.localNames = d.localNames := by
  by_cases h : d.odds.any (·.denominator == proper denominator) = true
  · rw [shareOdds_known numerator h]
  · exact (shareOdds_new numerator h).2.2

theorem names_addRequired (d : Draft) (slot : Slot) (series : Series) :
    series.names (d.addRequired slot) = series.names d := by
  unfold addRequired
  split
  · rfl
  · cases series <;> rfl

/-- A call leaves the counts of a series as they are, or takes the next name of one stem. -/
theorem perform_series (series : Series) (d : Draft) (c : Call) :
    (c.taken? d series = none ∧ series.names (c.perform d).2 = series.names d) ∨
    ∃ stem, c.taken? d series = some ⟨stem, ((series.names d).next stem).1⟩ ∧
      series.names (c.perform d).2 = ((series.names d).next stem).2 := by
  cases c with
  | slotName stem =>
    cases series with
    | slots => exact .inr ⟨stem, rfl, rfl⟩
    | locals => exact .inl ⟨rfl, rfl⟩
  | localName stem =>
    cases series with
    | slots => exact .inl ⟨rfl, rfl⟩
    | locals => exact .inr ⟨stem, rfl, rfl⟩
  | odds numerator denominator =>
    cases series with
    | locals => exact .inl ⟨rfl, d.localNames_shareOdds numerator denominator⟩
    | slots =>
      by_cases h : d.odds.any (·.denominator == proper denominator) = true
      · refine .inl ⟨if_pos h, ?_⟩
        exact congrArg slotNames (shareOdds_known numerator h)
      · obtain ⟨hname, hnames, -⟩ := shareOdds_new numerator h
        refine .inr ⟨"odds", (if_neg h).trans ?_, hnames⟩
        rw [hname]
        rfl
  | require slot =>
    refine .inl ⟨?_, d.names_addRequired slot series⟩
    cases series <;> rfl
  | store | storePassive | reference | write => exact .inl (by cases series <;> exact ⟨rfl, rfl⟩)

theorem uses_append (ts ts' : List Taken) (stem : String) :
    uses (ts ++ ts') stem = uses ts stem + uses ts' stem :=
  List.countP_append

theorem uses_singleton (t : Taken) (stem : String) :
    uses [t] stem = if t.stem = stem then 1 else 0 := by
  simp [uses, List.countP_cons]

theorem count_perform (series : Series) (d : Draft) (c : Call) (stem : String) :
    series.count (c.perform d).2 stem =
      series.count d stem + uses (c.taken? d series).toList stem := by
  unfold Series.count
  rcases perform_series series d c with ⟨htaken, hnames⟩ | ⟨stem', htaken, hnames⟩
  · rw [htaken, hnames]
    rfl
  · rw [htaken, hnames, Names.getD_next, Option.toList_some, uses_singleton]

theorem name_of_taken {series : Series} {d : Draft} {c : Call} {t : Taken}
    (h : c.taken? d series = some t) :
    t.name = Names.nth t.stem (series.count d t.stem + 1) := by
  rcases perform_series series d c with ⟨htaken, -⟩ | ⟨stem, htaken, -⟩
  · rw [htaken] at h
    cases h
  · rw [htaken] at h
    cases h
    rfl

variable {series : Series} {d : Draft} {calls : List Call} {t : Taken}

theorem taken_cons_none {c : Call} (h : c.taken? d series = none) :
    taken series d (c :: calls) = taken series (c.perform d).2 calls := by
  rw [taken, h]
  rfl

theorem taken_cons_some {c : Call} (h : c.taken? d series = some t) :
    taken series d (c :: calls) = t :: taken series (c.perform d).2 calls := by
  rw [taken, h]
  rfl

theorem count_after (series : Series) (d : Draft) (calls : List Call) (stem : String) :
    series.count (d.after calls) stem = series.count d stem + uses (taken series d calls) stem := by
  induction calls generalizing d with
  | nil => rfl
  | cons c calls ih =>
    have hafter : d.after (c :: calls) = (c.perform d).2.after calls := rfl
    rw [hafter, ih, count_perform, taken, uses_append, Nat.add_assoc]

/-- The number of a name is how often its stem has been used, this time included. -/
theorem name_of_getElem_taken {k : Nat} (h : (taken series d calls)[k]? = some t) :
    t.name = Names.nth t.stem
      (series.count d t.stem + uses ((taken series d calls).take (k + 1)) t.stem) := by
  induction calls generalizing d k with
  | nil => cases h
  | cons c calls ih =>
    have hcount := count_perform series d c t.stem
    cases htaken : c.taken? d series with
    | none =>
      rw [htaken] at hcount
      rw [taken_cons_none htaken] at h ⊢
      rw [ih h, hcount]
      rfl
    | some first =>
      rw [htaken, Option.toList_some] at hcount
      rw [taken_cons_some htaken] at h ⊢
      cases k with
      | zero =>
        obtain rfl := Option.some.inj h
        rw [name_of_taken htaken, List.take_succ_cons, List.take_zero, uses_singleton, if_pos rfl]
      | succ k =>
        rw [List.getElem?_cons_succ] at h
        rw [ih h, hcount, Nat.add_assoc, ← uses_append, List.singleton_append, List.take_succ_cons]

/-- Names that are taken later have higher numbers. -/
theorem count_lt_of_mem_taken (h : t ∈ taken series d calls) :
    ∃ n, series.count d t.stem < n ∧ t.name = Names.nth t.stem n := by
  obtain ⟨k, hk⟩ := List.mem_iff_getElem?.mp h
  refine ⟨_, Nat.lt_add_of_pos_right ?_, name_of_getElem_taken hk⟩
  have hmem : t ∈ (taken series d calls).take (k + 1) :=
    List.mem_of_getElem? ((List.getElem?_take_of_lt (Nat.lt_succ_self k)).trans hk)
  exact List.countP_pos_iff.mpr ⟨t, hmem, decide_eq_true rfl⟩

theorem nodup_taken (h : ∀ t ∈ taken series d calls, Unnumbered t.stem) :
    ((taken series d calls).map (·.name)).Nodup := by
  induction calls generalizing d with
  | nil => exact .nil
  | cons c calls ih =>
    cases htaken : c.taken? d series with
    | none =>
      rw [taken_cons_none htaken] at h ⊢
      exact ih h
    | some first =>
      rw [taken_cons_some htaken] at h ⊢
      obtain ⟨hfirst, hrest⟩ := List.forall_mem_cons.mp h
      rw [List.map_cons]
      refine List.nodup_cons.mpr ⟨fun hmem => ?_, ih hrest⟩
      obtain ⟨t, ht, hname⟩ := List.mem_map.mp hmem
      obtain ⟨n, hn, hnth⟩ := count_lt_of_mem_taken ht
      have hcount := count_perform series d c first.stem
      rw [htaken, Option.toList_some, uses_singleton, if_pos rfl] at hcount
      rw [hnth, name_of_taken htaken] at hname
      obtain ⟨hstem, hnumber⟩ := Names.nth_inj (hrest t ht) hfirst hname
      rw [hstem] at hn
      omega

/-- What an amount puts behind its name: nothing for a literal, and otherwise the mark of
a bound. -/
def endings : List String :=
  ["", "_min", "_max"]

def withEndings (name : String) : List String :=
  endings.map (name ++ ·)

theorem endsInBound_of_ending {ending : String} (h : ending ∈ endings) (hne : ending ≠ "")
    (name : String) : EndsInBound (name ++ ending) := by
  simp only [endings, List.mem_cons, List.not_mem_nil, or_false] at h
  rcases h with rfl | rfl | rfl
  · exact absurd rfl hne
  · exact (Names.endsInBound_append name).1
  · exact (Names.endsInBound_append name).2

theorem append_ending_inj {name name' ending ending' : String} (hname : ¬EndsInBound name)
    (hname' : ¬EndsInBound name') (h : ending ∈ endings) (h' : ending' ∈ endings)
    (heq : name ++ ending = name' ++ ending') : name = name' ∧ ending = ending' := by
  by_cases hempty : ending = "" <;> by_cases hempty' : ending' = ""
  · subst hempty hempty'
    simpa using heq
  · subst hempty
    rw [String.append_empty] at heq
    exact absurd (heq ▸ endsInBound_of_ending h' hempty' name') hname
  · subst hempty'
    rw [String.append_empty] at heq
    exact absurd (heq ▸ endsInBound_of_ending h hempty name) hname'
  · -- Both endings have four characters.
    have hlength : ∀ e ∈ endings, e ≠ "" → e.toList.length = 4 := by decide
    have hlists := congrArg String.toList heq
    rw [String.toList_append, String.toList_append] at hlists
    obtain ⟨hfront, hback⟩ := List.append_inj' hlists
      ((hlength _ h hempty).trans (hlength _ h' hempty').symm)
    exact ⟨String.toList_inj.mp hfront, String.toList_inj.mp hback⟩

theorem nodup_withEndings {names : List String} (hnodup : names.Nodup)
    (h : ∀ name ∈ names, ¬EndsInBound name) : (names.flatMap withEndings).Nodup := by
  have hendings : endings.Nodup := by decide
  refine List.nodup_flatMap.mpr ⟨fun name hname => ?_, hnodup.imp_of_mem ?_⟩
  · refine hendings.map_on fun e he e' he' heq => ?_
    exact (append_ending_inj (h name hname) (h name hname) he he' heq).2
  · intro name name' hname hname' hne text htext htext'
    obtain ⟨e, he, rfl⟩ := List.mem_map.mp htext
    obtain ⟨e', he', heq⟩ := List.mem_map.mp htext'
    exact hne (append_ending_inj (h name hname) (h name' hname') he he' heq.symm).1

theorem not_endsInBound_taken (h : ∀ t ∈ taken series d calls, ¬EndsInBound t.stem) :
    ∀ name ∈ (taken series d calls).map (·.name), ¬EndsInBound name := by
  intro name hname hbound
  obtain ⟨t, ht, rfl⟩ := List.mem_map.mp hname
  obtain ⟨n, -, hnth⟩ := count_lt_of_mem_taken ht
  rw [hnth] at hbound
  exact h t ht (Names.endsInBound_of_nth hbound)

/-- Whatever is asked of a draft, and in whatever order, the names that it gives out in a series are
pairwise different if no stem ends in a digit: the first name of a stem is the stem itself, and the
`n`-th is the stem with `n` behind it. They stay different with the endings of bounds behind them if
no stem has such an ending. Every count fits into 32 bits, since fewer names are taken than these
can count. -/
theorem taken_names_differ (series : Series) (owner : String) (calls : List Call)
    (hfew : (taken series { owner } calls).length < UInt32.size)
    (hstems : ∀ t ∈ taken series { owner } calls, Unnumbered t.stem) :
    ((taken series { owner } calls).map (·.name)).Nodup ∧
    (∀ k t n, (taken series { owner } calls)[k]? = some t →
      uses ((taken series { owner } calls).take (k + 1)) t.stem = n →
        t.name = if n = 1 then t.stem else t.stem ++ toString n) ∧
    ((∀ t ∈ taken series { owner } calls, ¬EndsInBound t.stem) →
      (((taken series { owner } calls).map (·.name)).flatMap withEndings).Nodup) ∧
    ∀ stem, series.count (({ owner } : Draft).after calls) stem < UInt32.size := by
  have hblank : ∀ stem, series.count { owner } stem = 0 := by
    intro stem
    cases series <;> rfl
  have hnodup := nodup_taken hstems
  refine ⟨hnodup, ?_, fun hbounds => nodup_withEndings hnodup (not_endsInBound_taken hbounds), ?_⟩
  · rintro k t n hk rfl
    rw [name_of_getElem_taken hk, hblank, Nat.zero_add]
    rfl
  · intro stem
    rw [count_after, hblank, Nat.zero_add]
    exact Nat.lt_of_le_of_lt List.countP_le_length hfew

/-- Calls for names of slots, of a local variable and of odds, with one stem empty and one that
comes near to a bound of another. -/
def crowdedCalls : List Call :=
  [.slotName "odds", .slotName "", .odds 1 4, .localName "odds", .slotName "", .odds 2 4,
    .slotName "odds_m", .odds 1 0, .slotName ""]

theorem crowded_names_differ :
    taken .slots { owner := "j" } crowdedCalls =
      [⟨"odds", "odds"⟩, ⟨"", ""⟩, ⟨"odds", "odds2"⟩, ⟨"", "2"⟩, ⟨"odds_m", "odds_m"⟩,
        ⟨"odds", "odds3"⟩, ⟨"", "3"⟩] ∧
    ["odds", "", "odds2", "2", "odds_m", "odds3", "3"].Nodup ∧
    (["odds", "", "odds2", "2", "odds_m", "odds3", "3"].flatMap withEndings).Nodup ∧
    Series.count .slots (({ owner := "j" } : Draft).after crowdedCalls) "odds" < UInt32.size := by
  have htaken : taken .slots { owner := "j" } crowdedCalls =
      [⟨"odds", "odds"⟩, ⟨"", ""⟩, ⟨"odds", "odds2"⟩, ⟨"", "2"⟩, ⟨"odds_m", "odds_m"⟩,
        ⟨"odds", "odds3"⟩, ⟨"", "3"⟩] := by
    decide +kernel
  obtain ⟨hnodup, -, hbounds, hcount⟩ := taken_names_differ .slots "j" crowdedCalls
    (by rw [htaken]; decide) (by rw [htaken]; decide +kernel)
  rw [htaken] at hnodup hbounds
  exact ⟨htaken, hnodup, hbounds (by decide +kernel), hcount "odds"⟩

/-- A stem that ends in a digit can be the second name of another. -/
example : (taken .locals { owner := "j" } [.localName "a", .localName "a", .localName "a2"]).map
    (·.name) = ["a", "a2", "a2"] := by
  decide +kernel

end JokerRules.Draft
