import JokerRules.Proofs.Readings

/-! The amounts that the effects of an item read, in the order in which its rules are compiled. The
slot names of fixed stems never meet, and each reading that asks for a slot has its declaration. -/

namespace JokerRules.Literals

open Definition Step Storage

theorem ofNumber_of_isZero {x : Binary64} (h : x.isZero = true) :
    Value.ofNumber x = .int (Int64.ofInt x.toInt) := by
  obtain ⟨hexponent, hfraction⟩ : x.exponent = 0 ∧ x.fraction = 0 := by
    simpa [Binary64.isZero] using h
  have hsignificand : x.significand = 0 := by
    simp [Binary64.significand, hexponent, hfraction]
  have hwhole : x.isWhole = true := by
    simp [Binary64.isWhole, Binary64.isFinite, hsignificand, hexponent]
  have hpart : x.wholePart = 0 := by
    simp [Binary64.wholePart, hsignificand]
  simp [Value.ofNumber, hwhole, hpart]

theorem eq_of_sameAs_ofNumber {v : Value} {x : Binary64}
    (h : v.sameAs (.ofNumber x) = true) : v = .ofNumber x := by
  unfold Value.sameAs at h
  split at h
  · next y z hz =>
    have hx : z.isZero = false := by
      rw [Bool.eq_false_iff]
      intro hzero
      have hxz : x = z := by
        unfold Value.ofNumber at hz
        split at hz
        · exact nomatch hz
        · exact Value.real.inj hz
      rw [ofNumber_of_isZero (hxz ▸ hzero)] at hz
      exact nomatch hz
    rw [Binary64.equals, hx] at h
    have hyz : y = z := by simpa using (Bool.and_eq_true_iff.mp h).2
    rw [hz, hyz]
  · exact eq_of_beq h

theorem forM_eq_ok {α ε : Type} {f : α → Except ε Unit} {l : List α}
    (h : l.forM f = .ok ()) : ∀ a ∈ l, f a = .ok () := by
  induction l with
  | nil => simp
  | cons a l ih =>
    have h : (f a >>= fun _ => l.forM f) = .ok () := h
    cases ha : f a with
    | error e =>
      rw [ha] at h
      exact nomatch h
    | ok u =>
      rw [ha] at h
      exact List.forall_mem_cons.mpr ⟨ha, ih h⟩

theorem checkOffset_eq_ok {item : Item} {slots user : List Slot} {d : Draft} {required : Slot}
    (h : checkOffset item slots user d required = .ok ()) :
    ∃ kept, slots.find? (·.name == required.name) = some kept ∧
      kept.initial.sameAs required.initial = true ∧
      NameSet.contains d.written required.name = false ∧
      user.any (·.name == required.name) = false := by
  unfold checkOffset at h
  split at h
  · exact nomatch h
  · next kept hkept =>
    split at h
    · exact nomatch h
    · next hcheck =>
      simp only [Bool.or_eq_true, not_or, Bool.not_eq_true, Bool.not_eq_false'] at hcheck
      exact ⟨kept, hkept, hcheck.1.1, hcheck.2, hcheck.1.2⟩

section Item

variable (item : Item) (settings : ModSettings)

def itemTrace : List (Draft × Step) :=
  passiveTrace item settings ++ triggeredTrace item settings

def itemReadings : List Reading :=
  readings settings.registry (itemTrace item settings)

/-- The readings of numbers, truth values and texts that are numbers. -/
def literals : List Reading :=
  (itemReadings item settings).filter (·.value.isLiteral)

/-- The odds that the item's groups roll against. -/
def itemOdds : List Odds :=
  rolls (triggeredTrace item settings)

/-- All slots that the item's effects and groups ask for, in order. -/
def declarations : List Slot :=
  declared settings.registry (itemTrace item settings)

theorem itemTrace_eq :
    itemTrace item settings = trace settings.registry (blank item settings)
      (ofPassive item.rules ++ ofTriggered settings.registry item.rules) :=
  (trace_append settings.registry _ _ _).symm

theorem ruleDraft_eq :
    ruleDraft item settings = runAll settings.registry (blank item settings)
      (ofPassive item.rules ++ ofTriggered settings.registry item.rules) := by
  rw [ruleDraft_eq_runAll, passiveDraft, runAll, runAll, runAll, List.foldl_append]

theorem declarations_eq :
    declarations item settings =
      passiveDeclarations item settings ++ triggeredDeclarations item settings :=
  List.flatMap_append

end Item

section Points

variable {item : Item} {settings : ModSettings} {d : Draft} {s : Step}

theorem held_of_mem_passiveTrace (h : (d, s) ∈ passiveTrace item settings) :
    ∃ e, s = held e := by
  obtain ⟨e, -, rfl⟩ := List.mem_map.mp (mem_steps_of_mem_trace h)
  exact ⟨e, rfl⟩

theorem mem_triggeredTrace (h : (d, s) ∈ itemTrace item settings) (hs : ∀ e, s ≠ held e) :
    (d, s) ∈ triggeredTrace item settings := by
  rcases List.mem_append.mp h with h | h
  · obtain ⟨e, rfl⟩ := held_of_mem_passiveTrace h
    exact absurd rfl (hs e)
  · exact h

theorem grows_ruleDraft (h : (d, s) ∈ itemTrace item settings) :
    Grows (run settings.registry d s) (ruleDraft item settings) := by
  rw [itemTrace_eq] at h
  rw [ruleDraft_eq]
  exact grows_of_mem_trace h

theorem mem_effects_of_fired {effects : List Effect} {groups : List RandomGroup} {t t' : Trigger}
    {e : Effect} {captures : Captures} (h : fired e t captures ∈ ofFiring effects groups t') :
    e ∈ effects ++ groups.flatMap (·.effects) := by
  rcases List.mem_append.mp h with h | h
  · obtain ⟨e', he', heq⟩ := List.mem_map.mp h
    obtain ⟨rfl, -⟩ := Step.fired.inj heq
    exact List.mem_append_left _ he'
  · obtain ⟨g, hg, h⟩ := List.mem_flatMap.mp h
    rcases List.mem_append.mp h with h | h
    · obtain ⟨e', he', heq⟩ := List.mem_map.mp h
      obtain ⟨rfl, -⟩ := Step.fired.inj heq
      exact List.mem_append_right _ (List.mem_flatMap.mpr ⟨g, hg, he'⟩)
    · split at h <;> simp at h

theorem exists_rule_of_fired {registry : Registry} {rules : List Rule} {e : Effect} {t : Trigger}
    {captures : Captures} (h : fired e t captures ∈ ofTriggered registry rules) :
    ∃ r ∈ rules, e ∈ r.everyEffect := by
  obtain ⟨block, hblock, h⟩ := List.mem_flatMap.mp h
  have hrules : ∀ r ∈ block.2, r ∈ rules := by
    obtain ⟨guard, -, rfl⟩ := List.mem_map.mp hblock
    exact fun r hr => (List.mem_filter.mp (List.mem_filter.mp hr).1).1
  rcases List.mem_append.mp h with h | h
  · obtain ⟨r, hr, h⟩ := List.mem_flatMap.mp h
    unfold ofBranch at h
    split at h
    · exact ⟨r, hrules r hr, mem_effects_of_fired h⟩
    · exact nomatch h
  · unfold ofFallback at h
    split at h
    · exact nomatch h
    · rcases List.mem_append.mp (mem_effects_of_fired h) with h | h
      · obtain ⟨r, hr, he⟩ := List.mem_flatMap.mp h
        exact ⟨r, hrules r (List.mem_filter.mp hr).1, List.mem_append_left _ he⟩
      · obtain ⟨g, hg, he⟩ := List.mem_flatMap.mp h
        obtain ⟨r, hr, hg⟩ := List.mem_flatMap.mp hg
        exact ⟨r, hrules r (List.mem_filter.mp hr).1,
          List.mem_append_right _ (List.mem_flatMap.mpr ⟨g, hg, he⟩)⟩

theorem exists_rule_of_target {e : Effect} {t : Trigger} {captures : Captures}
    (h : (d, fired e t captures) ∈ triggeredTrace item settings) :
    ∃ r ∈ item.rules, e ∈ r.everyEffect :=
  exists_rule_of_fired (mem_steps_of_mem_trace h)

end Points

section Names

variable {item : Item} {settings : ModSettings} {r : Reading} {o : Odds}

theorem name_of_mem_itemReadings (h : r ∈ itemReadings item settings) :
    ∃ n, r.name = Names.nth r.stem n := by
  rw [itemReadings, itemTrace_eq] at h
  obtain ⟨n, -, hname⟩ := count_lt_of_mem_readings h
  exact ⟨n, hname⟩

theorem stem_of_mem_itemReadings (h : r ∈ itemReadings item settings) :
    r.effect.HasStem r.stem := by
  obtain ⟨d, s, -, hr⟩ := exists_point_of_mem_readings h
  exact stem_of_reading hr

theorem name_of_mem_itemOdds (h : o ∈ itemOdds item settings) :
    ∃ n, o.name = Names.nth "odds" n := by
  obtain ⟨n, -, hname⟩ := (stored_ruleDraft item settings).named o h
  exact ⟨n, hname⟩

theorem name_ne_divisor (hr : r ∈ itemReadings item settings) (ho : o ∈ itemOdds item settings) :
    r.name ≠ o.name := by
  obtain ⟨n, hn⟩ := name_of_mem_itemReadings hr
  obtain ⟨m, hm⟩ := name_of_mem_itemOdds ho
  rw [hn, hm]
  intro heq
  rcases stem_of_mem_itemReadings hr with hcalm | ⟨-, hbonus⟩
  · exact hcalm.2.2 (Names.nth_inj hcalm.1 (by decide) heq).1
  · have hbonus : ∃ rest, r.stem.toList = 'p' :: rest := startsWith_cons hbonus
    obtain ⟨rest, hrest⟩ := hbonus
    have hhead := head?_nth (by rw [hrest]; rfl : r.stem.toList.head? = some 'p') n
    rw [heq, head?_nth (by decide : "odds".toList.head? = some 'o')] at hhead
    exact absurd hhead (by decide)

theorem not_endsInBound_divisor (h : o ∈ itemOdds item settings) :
    ¬Names.EndsInBound o.name := by
  obtain ⟨n, hn⟩ := name_of_mem_itemOdds h
  rw [hn]
  exact fun hbound => absurd (Names.endsInBound_of_nth hbound) (by decide)

theorem endsInBound_stem (h : r ∈ itemReadings item settings)
    (hbound : Names.EndsInBound r.name) : Names.EndsInBound r.stem := by
  obtain ⟨n, hn⟩ := name_of_mem_itemReadings h
  rw [hn] at hbound
  exact Names.endsInBound_of_nth hbound

end Names

theorem exists_first {registry : Registry} {points : List (Draft × Step)} {name : String}
    {slot : Slot} (h : (declared registry points).find? (·.name == name) = some slot) :
    ∃ before d s after, points = before ++ (d, s) :: after ∧ slot ∈ s.declares registry d ∧
      ∀ other ∈ declared registry before, other.name ≠ name := by
  induction points with
  | nil => exact nomatch h
  | cons p points ih =>
    rw [declared_cons, List.find?_append] at h
    cases hfind : (p.2.declares registry p.1).find? (·.name == name) with
    | some first =>
      rw [hfind] at h
      obtain rfl := Option.some.inj h
      exact ⟨[], p.1, p.2, points, rfl, List.mem_of_find?_eq_some hfind, by simp [declared]⟩
    | none =>
      rw [hfind, Option.none_or] at h
      obtain ⟨before, d, s, after, rfl, hslot, hbefore⟩ := ih h
      refine ⟨p :: before, d, s, after, rfl, hslot, fun other hother => ?_⟩
      rw [declared_cons] at hother
      rcases List.mem_append.mp hother with hother | hother
      · simpa using List.find?_eq_none.mp hfind other hother
      · exact hbefore other hother

section Declarations

variable {item : Item} {settings : ModSettings} {d : Draft} {s : Step} {slot : Slot}

theorem slot_of_reading {r : Reading} (hr : r ∈ itemReadings item settings)
    (hslot : slot ∈ r.resolved.newSlots) :
    (r ∈ literals item settings ∧ slot = { name := r.name, initial := r.value.content }) ∨
      Names.EndsInBound slot.name ∨ r.resolved.offsetSlot = some slot := by
  obtain ⟨d, s, -, hpoint⟩ := exists_point_of_mem_readings hr
  obtain ⟨captures, hresolved⟩ := resolved_of_reading hpoint
  rw [hresolved] at hslot
  rcases Resolved.mem_newSlots_ofValue hslot with ⟨hliteral, hslot⟩ | hbound | hoffset
  · exact .inl ⟨List.mem_filter.mpr ⟨hr, hliteral⟩, hslot⟩
  · refine .inr (.inl ?_)
    rcases hbound with hbound | hbound <;> rw [hbound]
    · exact (Names.endsInBound_append _).1
    · exact (Names.endsInBound_append _).2
  · exact .inr (.inr (hresolved ▸ hoffset))

/-- An amount can have the name of odds only as the offset of a reading. -/
theorem offset_of_divisor {r : Reading} {o : Odds} (hr : r ∈ itemReadings item settings)
    (hslot : slot ∈ r.resolved.newSlots) (ho : o ∈ itemOdds item settings)
    (hname : slot.name = o.name) : r.resolved.offsetSlot = some slot := by
  rcases slot_of_reading hr hslot with ⟨-, rfl⟩ | hends | hoffset
  · exact absurd hname (name_ne_divisor hr ho)
  · exact absurd (hname ▸ hends) (not_endsInBound_divisor ho)
  · exact hoffset

theorem mem_itemReadings (hpoint : (d, s) ∈ itemTrace item settings) {r : Reading}
    (hr : s.reading? settings.registry d = some r) : r ∈ itemReadings item settings :=
  List.mem_filterMap.mpr ⟨_, hpoint, hr⟩

theorem mem_itemOdds_of_rolled {numerator denominator : UInt32}
    (h : (d, rolled numerator denominator) ∈ itemTrace item settings) :
    oddsOf d numerator denominator ∈ itemOdds item settings :=
  mem_rolls.mpr ⟨d, numerator, denominator, mem_triggeredTrace h (by simp), rfl⟩

theorem resolved_of_literal {l : Reading} (h : l ∈ literals item settings) :
    l.resolved = Resolved.ofLiteral l.value.content l.name := by
  obtain ⟨hmem, hliteral⟩ := List.mem_filter.mp h
  obtain ⟨d, s, -, hr⟩ := exists_point_of_mem_readings hmem
  obtain ⟨captures, hresolved⟩ := resolved_of_reading hr
  rw [hresolved, Resolved.ofValue_of_isLiteral hliteral]

theorem divisor_declared {o : Odds} (h : o ∈ itemOdds item settings) :
    o.name ∈ (declarations item settings).map (·.name) := by
  rw [declarations_eq]
  exact List.mem_map.mpr ⟨slotOf o,
    List.mem_append_right _ ((stored_ruleDraft item settings).asked o h), rfl⟩

theorem denominator_of_name {o o' : Odds} (h : o ∈ itemOdds item settings)
    (h' : o' ∈ itemOdds item settings) (hname : o.name = o'.name) :
    o.denominator = o'.denominator := by
  have hstored := stored_ruleDraft item settings
  obtain ⟨p, hp, hpname, hpden⟩ := hstored.shared o h
  obtain ⟨p', hp', hpname', hpden'⟩ := hstored.shared o' h'
  have hnodup : ((ruleDraft item settings).odds.map (·.name)).Nodup := by
    rw [hstored.odds]
    exact nodup_firsts Odds.name _
  have heq : p = p' := List.inj_on_of_nodup_map hnodup hp hp' (by rw [hpname, hname, hpname'])
  rw [← hpden, heq, hpden']

theorem denominator_ne_zero {o : Odds} (h : o ∈ itemOdds item settings) :
    Value.int (Int64.ofNat o.denominator.toNat) ≠ .int 0 := by
  obtain ⟨d, numerator, denominator, -, rfl⟩ := mem_rolls.mp h
  have hproper : (oddsOf d numerator denominator).denominator ≠ 0 := by
    show (if denominator = 0 then 1 else denominator) ≠ 0
    split
    · decide
    · assumption
  have hsmall := (oddsOf d numerator denominator).denominator.toNat_lt
  intro hzero
  have htoInt := congrArg Int64.toInt (Value.int.inj hzero)
  rw [Int64.toInt_ofNat_of_lt (by omega)] at htoInt
  exact hproper (UInt32.toNat_inj.mp (by simpa using htoInt))

end Declarations

end JokerRules.Literals
