import JokerRules.Proofs.Series
import JokerRules.Proofs.StepChanges
import Mathlib.Data.List.Forall2
import Mathlib.Data.List.Nodup

/-! The slots of the odds. Whatever is asked of a draft, and in whatever order, each denominator has
one slot, under the name and with the numerator of its first use. -/

namespace JokerRules.Draft

/-- What can be asked of a draft. -/
inductive Call
  | slotName (stem : String)
  | localName (stem : String)
  | odds (numerator denominator : UInt32)
  | store (effectId : String) (slots : List Slot)
  | storePassive (effectId : String) (slots : List Slot)
  | require (slot : Slot)
  | reference (name : String)
  | write (name : String)

/-- The name that a call gives back, if it gives one, and the draft after it. -/
def Call.perform (d : Draft) : Call → Option String × Draft
  | slotName stem => (d.nextSlotName stem).map some id
  | localName stem => (d.nextLocalName stem).map some id
  | odds numerator denominator => (d.shareOdds numerator denominator).map some id
  | store effectId slots => (none, d.store effectId slots)
  | storePassive effectId slots => (none, d.storePassive effectId slots)
  | require slot => (none, d.addRequired slot)
  | reference name => (none, d.addReference name)
  | write name => (none, d.addWritten name)

def after (d : Draft) (calls : List Call) : Draft :=
  calls.foldl (fun d c => (c.perform d).2) d

/-- What the call at a position gives back. -/
def answer? (d : Draft) (calls : List Call) (i : Nat) : Option String :=
  calls[i]?.bind fun c => (c.perform (d.after (calls.take i))).1

/-- Zero is read as one. -/
def proper (denominator : UInt32) : UInt32 :=
  if denominator = 0 then 1 else denominator

/-- The odds that a call asks for, as numerator and denominator. -/
def Call.ratio? : Call → Option (UInt32 × UInt32)
  | odds numerator denominator => some (numerator, proper denominator)
  | _ => none

def ratios (calls : List Call) : List (UInt32 × UInt32) :=
  calls.filterMap Call.ratio?

/-- The slot has the name and the denominator of the odds. -/
def HoldsOdds (o : Odds) (s : Slot) : Prop :=
  s.name = o.name ∧ ∃ n, s.initial = .int n ∧ n.toInt = o.denominator.toNat

theorem one_le_proper (denominator : UInt32) : 1 ≤ proper denominator := by
  unfold proper
  split
  · exact UInt32.le_refl 1
  · next h =>
    rw [UInt32.le_iff_toNat_le]
    have hne : denominator.toNat ≠ 0 := fun hzero => h (UInt32.toNat_inj.mp hzero)
    exact Nat.one_le_iff_ne_zero.mpr hne

theorem holdsOdds_slotOf (o : Odds) : HoldsOdds o (Step.slotOf o) := by
  have hsmall := o.denominator.toNat_lt
  exact ⟨rfl, _, rfl, Int64.toInt_ofNat_of_lt (by omega)⟩

theorem after_append (d : Draft) (before rest : List Call) :
    d.after (before ++ rest) = (d.after before).after rest :=
  List.foldl_append

/-- The odds stay, and slots are only added. -/
structure SameOdds (d d' : Draft) : Prop where
  odds : d'.odds = d.odds
  count : d.count "odds" ≤ d'.count "odds"
  slots : d.derivedSlots <+: d'.derivedSlots

/-- Odds of a new denominator are added, with their slot. -/
structure AddsOdds (d d' : Draft) (o : Odds) : Prop where
  fresh : ∀ o' ∈ d.odds, o'.denominator ≠ o.denominator
  name : o.name = Names.nth "odds" (d.count "odds" + 1)
  odds : d'.odds = d.odds ++ [o]
  count : d'.count "odds" = d.count "odds" + 1
  slots : d'.derivedSlots = d.derivedSlots ++ [Step.slotOf o]

theorem foldl_addSlot_prefix (taken slots news : List Slot) :
    slots <+: news.foldl (addSlot taken) slots := by
  induction news generalizing slots with
  | nil => exact List.prefix_rfl
  | cons slot news ih =>
    refine List.IsPrefix.trans ?_ (ih (addSlot taken slots slot))
    unfold addSlot
    split
    · exact List.prefix_rfl
    · exact List.prefix_append _ _

/-- Odds that are there are found again, and others are added at the end. -/
theorem shareOdds_cases (d : Draft) (numerator denominator : UInt32) :
    (∃ o ∈ d.odds, o.denominator = proper denominator ∧
      d.shareOdds numerator denominator = (o.name, d)) ∨
    ∃ o, o.numerator = numerator ∧ o.denominator = proper denominator ∧
      (d.shareOdds numerator denominator).1 = o.name ∧
      AddsOdds d (d.shareOdds numerator denominator).2 o := by
  have hproper : (if denominator = 0 then 1 else denominator) = proper denominator := rfl
  simp only [shareOdds, hproper]
  cases hfind : d.odds.find? (·.denominator == proper denominator) with
  | some o =>
    refine .inl ⟨o, List.mem_of_find?_eq_some hfind, ?_, rfl⟩
    simpa using List.find?_some hfind
  | none =>
    have hcount := d.count_nextSlotName "odds" "odds"
    rw [if_pos rfl] at hcount
    refine .inr ⟨⟨_, numerator, proper denominator⟩, rfl, rfl, rfl, ?_, rfl, rfl, hcount, rfl⟩
    simpa using hfind

theorem perform_cases (d : Draft) (c : Call) :
    (SameOdds d (c.perform d).2 ∧
      ∀ r, c.ratio? = some r → ∃ o ∈ d.odds, o.denominator = r.2 ∧ (c.perform d).1 = some o.name) ∨
    ∃ o, c.ratio? = some (o.numerator, o.denominator) ∧ (c.perform d).1 = some o.name ∧
      AddsOdds d (c.perform d).2 o := by
  cases c with
  | odds numerator denominator =>
    rcases d.shareOdds_cases numerator denominator with ⟨o, ho, hproper, hshare⟩ |
      ⟨o, rfl, hproper, hname, hadds⟩
    · have hperform : (Call.odds numerator denominator).perform d = (some o.name, d) :=
        congrArg (Prod.map some id) hshare
      rw [hperform]
      refine .inl ⟨⟨rfl, Nat.le_refl _, List.prefix_rfl⟩, ?_⟩
      rintro _ ⟨⟩
      exact ⟨o, ho, hproper, rfl⟩
    · exact .inr ⟨o, by rw [hproper]; rfl, congrArg some hname, hadds⟩
  | slotName stem =>
    exact .inl ⟨⟨rfl, (grows_nextSlotName d stem).count "odds", List.prefix_rfl⟩, nofun⟩
  | localName stem => exact .inl ⟨⟨rfl, Nat.le_refl _, List.prefix_rfl⟩, nofun⟩
  | store effectId slots =>
    exact .inl ⟨⟨rfl, Nat.le_refl _, foldl_addSlot_prefix _ _ _⟩, nofun⟩
  | storePassive effectId slots => exact .inl ⟨⟨rfl, Nat.le_refl _, List.prefix_rfl⟩, nofun⟩
  | reference name => exact .inl ⟨⟨rfl, Nat.le_refl _, List.prefix_rfl⟩, nofun⟩
  | write name => exact .inl ⟨⟨rfl, Nat.le_refl _, List.prefix_rfl⟩, nofun⟩
  | require slot =>
    refine .inl ⟨?_, nofun⟩
    show SameOdds d (d.addRequired slot)
    unfold addRequired
    split
    · exact ⟨rfl, Nat.le_refl _, List.prefix_rfl⟩
    · exact ⟨rfl, Nat.le_refl _, List.prefix_rfl⟩

theorem odds_prefix_perform (d : Draft) (c : Call) : d.odds <+: (c.perform d).2.odds := by
  rcases d.perform_cases c with ⟨hsame, -⟩ | ⟨o, -, -, hadds⟩
  · exact hsame.odds ▸ List.prefix_rfl
  · exact hadds.odds ▸ List.prefix_append _ _

theorem odds_prefix_after (d : Draft) (calls : List Call) : d.odds <+: (d.after calls).odds := by
  induction calls generalizing d with
  | nil => exact List.prefix_rfl
  | cons c calls ih => exact (d.odds_prefix_perform c).trans (ih (c.perform d).2)

/-- The odds of a draft, given what has been asked for. -/
structure Shared (d : Draft) (rs : List (UInt32 × UInt32)) : Prop where
  denominators : d.odds.map (·.denominator) = (rs.map (·.2)).eraseDups
  distinct : (d.odds.map (·.denominator)).Nodup
  numerators : ∀ o ∈ d.odds, rs.find? (·.2 == o.denominator) = some (o.numerator, o.denominator)
  /-- The odds have names that have been given out. -/
  given : ∀ o ∈ d.odds, ∃ n, n ≤ d.count "odds" ∧ o.name = Names.nth "odds" n
  names : (d.odds.map (·.name)).Nodup
  slots : (d.odds.map Step.slotOf).Sublist d.derivedSlots

theorem shared_blank (owner : String) : Shared { owner } [] :=
  ⟨rfl, .nil, nofun, nofun, .nil, .slnil⟩

variable {d d' : Draft} {rs : List (UInt32 × UInt32)}

/-- What has been asked for before stays as it is when more is asked for. -/
theorem Shared.numerators_append (h : Shared d rs) (more : List (UInt32 × UInt32)) {o : Odds}
    (ho : o ∈ d.odds) :
    (rs ++ more).find? (·.2 == o.denominator) = some (o.numerator, o.denominator) := by
  rw [List.find?_append, h.numerators o ho, Option.some_or]

theorem Shared.same (h : Shared d rs) (hsame : SameOdds d d') : Shared d' rs := by
  refine ⟨?_, ?_, ?_, ?_, ?_, ?_⟩ <;> rw [hsame.odds]
  · exact h.denominators
  · exact h.distinct
  · exact h.numerators
  · intro o ho
    obtain ⟨n, hn, hname⟩ := h.given o ho
    exact ⟨n, Nat.le_trans hn hsame.count, hname⟩
  · exact h.names
  · exact h.slots.trans hsame.slots.sublist

theorem eraseDups_concat (seen : List UInt32) (denominator : UInt32) :
    (seen ++ [denominator]).eraseDups =
      if denominator ∈ seen then seen.eraseDups else seen.eraseDups ++ [denominator] := by
  rw [List.eraseDups_append]
  split
  · next h => simp [List.removeAll, h]
  · next h => simp [List.removeAll, h, List.eraseDups_cons]

/-- Asking again for a denominator changes nothing. -/
theorem Shared.repeated (h : Shared d rs) {r : UInt32 × UInt32}
    (hr : ∃ o ∈ d.odds, o.denominator = r.2) : Shared d (rs ++ [r]) := by
  obtain ⟨o, ho, hor⟩ := hr
  have hmem : r.2 ∈ rs.map (·.2) := by
    rw [← List.mem_eraseDups, ← h.denominators, ← hor]
    exact List.mem_map_of_mem ho
  refine ⟨?_, h.distinct, fun o ho => h.numerators_append [r] ho, h.given, h.names, h.slots⟩
  rw [h.denominators, List.map_append, List.map_singleton, eraseDups_concat, if_pos hmem]

theorem Shared.added (h : Shared d rs) {o : Odds} (hadds : AddsOdds d d' o) :
    Shared d' (rs ++ [(o.numerator, o.denominator)]) := by
  have hnew : o.denominator ∉ d.odds.map (·.denominator) := by
    simpa using fun o' ho' => hadds.fresh o' ho'
  have hrs : o.denominator ∉ rs.map (·.2) := by rwa [← List.mem_eraseDups, ← h.denominators]
  have hname : o.name ∉ d.odds.map (·.name) := by
    intro hmem
    obtain ⟨o', ho', heq⟩ := List.mem_map.mp hmem
    obtain ⟨n, hn, hnth⟩ := h.given o' ho'
    have := Names.nth_injective (hnth.symm.trans (heq.trans hadds.name))
    omega
  refine ⟨?_, ?_, ?_, ?_, ?_, ?_⟩ <;> rw [hadds.odds]
  · simp only [List.map_append, List.map_singleton, h.denominators, eraseDups_concat, if_neg hrs]
  · rw [List.map_append]
    exact List.nodup_append.mpr ⟨h.distinct, by simp, by simpa using hnew⟩
  · refine List.forall_mem_append.mpr ⟨fun o' ho' => h.numerators_append _ ho', ?_⟩
    have hnone : rs.find? (·.2 == o.denominator) = none := by
      rw [List.find?_eq_none]
      exact fun r hr heq => hrs (List.mem_map.mpr ⟨r, hr, by simpa using heq⟩)
    rw [List.forall_mem_singleton, List.find?_append, hnone, Option.none_or]
    simp
  · rw [hadds.count]
    refine List.forall_mem_append.mpr ⟨fun o' ho' => ?_, ?_⟩
    · obtain ⟨n, hn, hnth⟩ := h.given o' ho'
      exact ⟨n, Nat.le_succ_of_le hn, hnth⟩
    · exact List.forall_mem_singleton.mpr ⟨_, Nat.le_refl _, hadds.name⟩
  · rw [List.map_append]
    exact List.nodup_append.mpr ⟨h.names, by simp, by simpa using hname⟩
  · rw [hadds.slots, List.map_append]
    exact h.slots.append (.refl _)

theorem Shared.perform (h : Shared d rs) (c : Call) :
    Shared (c.perform d).2 (rs ++ c.ratio?.toList) := by
  rcases d.perform_cases c with ⟨hsame, hfound⟩ | ⟨o, hratio, -, hadds⟩
  · cases hratio : c.ratio? with
    | none => simpa using h.same hsame
    | some r =>
      obtain ⟨o, ho, hor, -⟩ := hfound r hratio
      exact (h.repeated ⟨o, ho, hor⟩).same hsame
  · rw [hratio]
    exact h.added hadds

theorem Shared.after (h : Shared d rs) (calls : List Call) :
    Shared (d.after calls) (rs ++ ratios calls) := by
  induction calls generalizing d rs with
  | nil => simpa [ratios, Draft.after] using h
  | cons c calls ih =>
    have hratios : ratios (c :: calls) = c.ratio?.toList ++ ratios calls := by
      cases hratio : c.ratio? <;> simp [ratios, hratio]
    rw [hratios, ← List.append_assoc]
    exact ih (h.perform c)

/-- A call for odds gives the name of the odds that the draft keeps from then on. -/
theorem exists_odds_of_answer (d : Draft) {calls : List Call} {i : Nat} {c : Call}
    (hc : calls[i]? = some c) {r : UInt32 × UInt32} (hr : c.ratio? = some r) :
    ∃ o ∈ (d.after calls).odds, o.denominator = r.2 ∧ d.answer? calls i = some o.name := by
  obtain ⟨hi, rfl⟩ := List.getElem?_eq_some_iff.mp hc
  have hsplit : d.after calls =
      ((calls[i].perform (d.after (calls.take i))).2).after (calls.drop (i + 1)) := by
    conv_lhs => rw [← List.take_append_drop i calls, after_append, List.drop_eq_getElem_cons hi]
    rfl
  have hanswer : d.answer? calls i = (calls[i].perform (d.after (calls.take i))).1 := by
    rw [answer?, hc, Option.bind_some]
  have hkept := (calls[i].perform (d.after (calls.take i))).2.odds_prefix_after (calls.drop (i + 1))
  rw [hsplit, hanswer]
  rcases (d.after (calls.take i)).perform_cases calls[i] with ⟨hsame, hfound⟩ |
    ⟨o, hratio, hname, hadds⟩
  · obtain ⟨o, ho, hor, hname⟩ := hfound r hr
    exact ⟨o, hkept.subset (hsame.odds ▸ ho), hor, hname⟩
  · obtain rfl := Option.some.inj (hratio.symm.trans hr)
    exact ⟨o, hkept.subset (by simp [hadds.odds]), rfl, hname⟩

theorem Shared.name_eq_iff (h : Shared d rs) {o o' : Odds} (ho : o ∈ d.odds) (ho' : o' ∈ d.odds) :
    o.name = o'.name ↔ o.denominator = o'.denominator := by
  constructor
  · intro hname
    rw [List.inj_on_of_nodup_map h.names ho ho' hname]
  · intro hdenominator
    rw [List.inj_on_of_nodup_map h.distinct ho ho' hdenominator]

/-- In every draft that calls lead to, each denominator has one slot: its odds have a name of their
own, which every call for the denominator gives back, they keep the numerator of the first call, and
they stand in the order of their first uses, among the odds as among the slots. -/
theorem one_slot_per_denominator (owner : String) (calls : List Call) :
    let start : Draft := { owner }
    let d := start.after calls
    (d.odds.map (·.denominator)).Nodup ∧ (∀ o ∈ d.odds, 1 ≤ o.denominator) ∧
    (d.odds.map (·.name)).Nodup ∧
    (∀ i j numerator denominator numerator' denominator',
      calls[i]? = some (.odds numerator denominator) →
      calls[j]? = some (.odds numerator' denominator') →
        ∃ name name', start.answer? calls i = some name ∧ start.answer? calls j = some name' ∧
          (name = name' ↔ proper denominator = proper denominator')) ∧
    (∀ before rest, calls = before ++ rest → (start.after before).odds <+: d.odds) ∧
    (∀ o ∈ d.odds, (ratios calls).find? (·.2 == o.denominator) = some (o.numerator, o.denominator)) ∧
    d.odds.map (·.denominator) = ((ratios calls).map (·.2)).eraseDups ∧
    List.SublistForall₂ HoldsOdds d.odds d.derivedSlots := by
  intro start d
  have hshared : Shared d (ratios calls) := (shared_blank owner).after calls
  refine ⟨hshared.distinct, fun o ho => ?_, hshared.names, fun i j n p n' p' hi hj => ?_, ?_,
    hshared.numerators, hshared.denominators, ?_⟩
  · obtain ⟨c, -, hratio⟩ := List.mem_filterMap.mp (List.mem_of_find?_eq_some (hshared.numerators o ho))
    cases c with
    | odds numerator denominator =>
      obtain ⟨-, hproper⟩ := Prod.mk.inj (Option.some.inj hratio)
      exact hproper ▸ one_le_proper denominator
    | _ => cases hratio
  · obtain ⟨o, ho, hor, hname⟩ := start.exists_odds_of_answer hi rfl
    obtain ⟨o', ho', hor', hname'⟩ := start.exists_odds_of_answer hj rfl
    refine ⟨o.name, o'.name, hname, hname', ?_⟩
    rw [hshared.name_eq_iff ho ho', hor, hor']
  · rintro before rest rfl
    have hd : d = (start.after before).after rest := start.after_append before rest
    exact hd ▸ odds_prefix_after _ rest
  · refine List.sublistForall₂_iff.mpr ⟨d.odds.map Step.slotOf, ?_, hshared.slots⟩
    rw [List.forall₂_map_right_iff, List.forall₂_same]
    exact fun o _ => holdsOdds_slotOf o

example : (({ owner := "j" } : Draft).after
    [.odds 1 4, .slotName "odds", .odds 2 0, .odds 3 4, .odds 5 1]).odds =
      [⟨"odds", 1, 4⟩, ⟨"odds3", 2, 1⟩] := by
  decide +kernel

end JokerRules.Draft
