import JokerRules.Proofs.HoistedCode
import JokerRules.Proofs.Readings

/-! Statements that capture variables and statements that write them. After the captures each local
variable has the value of its slot, and writing a slot leaves the local variables as they are. -/

namespace JokerRules

open Text Statement

namespace Capture

variable {effects : List Effect} {name : String}

theorem contains_writes :
    NameSet.contains (writes effects) name = true ↔ ∃ e ∈ effects, e.target? = some name := by
  rw [writes, NameSet.contains_ofNames, List.mem_filterMap]

theorem mem_conflicts :
    name ∈ conflicts effects ↔
      (∃ e ∈ effects, ∃ entry ∈ e.params.entries, readName? entry = some name) ∧
        ∃ e ∈ effects, e.target? = some name := by
  rw [conflicts, List.mem_filter, Keyed.mem_keys_iff]
  change NameSet.contains (reads effects) name = true ∧ _ ↔ _
  rw [reads, NameSet.contains_ofNames, contains_writes]
  simp only [List.mem_flatMap, List.mem_filterMap]

theorem isName_of_mem_conflicts (h : name ∈ conflicts effects) : IsName name.toList := by
  obtain ⟨⟨e, -, ⟨key, value⟩, -, hread⟩, -⟩ := mem_conflicts.mp h
  unfold readName? at hread
  split at hread
  · split at hread
    · exact nomatch hread
    · split at hread
      · exact nomatch hread
      · next hne =>
        obtain rfl := Option.some.inj hread
        exact ⟨fun hnil => hne (String.toList_eq_nil_iff.mp hnil), isNameChar_identifier _⟩
  · exact nomatch hread

theorem readName?_value {raw : String} (hnumber : (Value.str raw).number? = none)
    (hname : identifier raw ≠ "") : readName? ("value", .str raw) = some (identifier raw) := by
  have hstructural : isStructural "value" = false := by decide
  simp [readName?, hstructural, hnumber, hname]

theorem localOf_injective {name' : String} (h : localOf name = localOf name') : name = name' := by
  have htext := congrArg String.toList h
  rw [localOf, localOf, String.toList_append, String.toList_append] at htext
  exact String.toList_inj.mp (List.append_cancel_right htext)

/-- A variable has its local variable exactly if it is captured. -/
theorem get?_captures (effects : List Effect) (name : String) :
    (captures effects).get? name = if name ∈ conflicts effects then some (localOf name) else none := by
  have hfold : ∀ (names : List String) (m : Captures),
      ((names.map fun n => (n, localOf n)).foldl (fun m b => m.insert b.1 b.2) m).get? name =
        if name ∈ names then some (localOf name) else m.get? name := by
    intro names
    induction names with
    | nil => simp
    | cons n names ih =>
      intro m
      rw [List.map_cons, List.foldl_cons, ih, Keyed.get?_insert]
      by_cases hmem : name ∈ names
      · simp [hmem]
      · by_cases heq : name = n <;> simp [hmem, heq]
  exact hfold (conflicts effects) _

end Capture

/-- The text gives a variable's value to its local variable. -/
def Capturing (text : String) : Prop :=
  ∃ name, Statement.read text.toList = .bind (Capture.localOf name) (Slot.read name)

/-- The text writes a slot. -/
def Writing (text : String) : Prop :=
  ∃ slot expr, Statement.read text.toList = .assign slot expr

theorem isName_localOf {name : String} (h : IsName name.toList) :
    IsName (Capture.localOf name).toList := by
  rw [Capture.localOf, String.toList_append]
  refine ⟨by simp [h.1], fun c hc => ?_⟩
  rcases List.mem_append.mp hc with hc | hc
  · exact h.2 c hc
  · exact List.all_eq_true.mp (by decide) c hc

theorem value_localOf (name : String) : "_value".toList <:+ (Capture.localOf name).toList := by
  rw [Capture.localOf, String.toList_append]
  exact List.suffix_append _ _

/-- What a capture is read as. -/
theorem read_capture {name : String} (h : IsName name.toList) :
    Statement.read ("local " ++ Capture.localOf name ++ " = " ++ Slot.read name).toList =
      .bind (Capture.localOf name) (Slot.read name) := by
  have hname := isName_localOf h
  have htext : ("local " ++ Capture.localOf name ++ " = " ++ Slot.read name).toList =
      localStart ++ ((Capture.localOf name).toList ++ (equals ++ (Slot.read name).toList)) := by
    simp [localStart, equals]
  have hbinding : binding? (localStart ++
      ((Capture.localOf name).toList ++ (equals ++ (Slot.read name).toList))) =
        some (Capture.localOf name, Slot.read name) := by
    rw [binding?, equation?_local hname, Option.none_or, after?_eq_some_iff.mpr rfl]
    exact equation?_eq_some_iff.mpr ⟨hname, rfl⟩
  rw [htext, Statement.read, hbinding]

theorem oneLine_read {name : String} (h : ∀ c ∈ name.toList, isNameChar c = true) :
    OneLine (Slot.read name) := by
  have hstart : OneLine "card.ability.extra." := by decide
  exact hstart.append fun hmem => ne_lineFeed_of_isNameChar (h _ hmem) rfl

theorem single?_capture {name : String} (h : IsName name.toList) :
    single? ("local " ++ Capture.localOf name ++ " = " ++ Slot.read name) =
      some (.bind (Capture.localOf name) (Slot.read name)) := by
  have hlocal : OneLine (Capture.localOf name) :=
    fun hmem => ne_lineFeed_of_isNameChar ((isName_localOf h).2 _ hmem) rfl
  have hline : OneLine ("local " ++ Capture.localOf name ++ " = " ++ Slot.read name) :=
    LinePart.oneLine_template [.fixed _, .hole _ hlocal, .fixed _, .hole _ (oneLine_read h.2)] rfl
  rw [single?, read_capture h]
  exact if_neg hline

/-- What a write is read as, whatever its expression is. -/
theorem read_write {name : String} (h : IsName name.toList) (expr : String) :
    Statement.read (Slot.read name ++ " = " ++ expr).toList = .assign name expr := by
  have htext : (Slot.read name ++ " = " ++ expr).toList =
      slotStart ++ (name.toList ++ (equals ++ expr.toList)) := by
    simp only [String.toList_append, toList_read, equals, List.append_assoc]
  have hbinding := binding?_slot (name.toList ++ (equals ++ expr.toList))
  have hassignment : assignment? (slotStart ++ (name.toList ++ (equals ++ expr.toList))) =
      some (name, expr) := by
    rw [assignment?, after?_eq_some_iff.mpr rfl]
    exact equation?_eq_some_iff.mpr ⟨h, rfl⟩
  rw [htext, Statement.read, hbinding, hassignment]

theorem assignment_eq (op : Operation) (target amount : String) :
    ∃ expr, op.assignment target amount = target ++ " = " ++ expr :=
  ⟨_, rfl⟩

theorem single?_write {name : String} (h : IsName name.toList) (expr : String) :
    single? (Slot.read name ++ " = " ++ expr) = some (.assign name expr) := by
  rw [single?, read_write h]

theorem slotName?_read {name : String} (h : ∀ c ∈ name.toList, isNameChar c = true) :
    slotName? (Slot.read name) = some name := by
  have hafter : after? slotStart (Slot.read name).toList = some name.toList :=
    after?_eq_some_iff.mpr (toList_read name)
  have hall : name.toList.all isNameChar = true := List.all_eq_true.mpr h
  rw [slotName?, hafter, Option.filter_some, if_pos hall, Option.map_some, String.ofList_toList]

theorem slotName?_eq_none {name : String} (h : ∀ c ∈ name.toList, isNameChar c = true) :
    slotName? name = none := by
  have hafter : after? slotStart name.toList = none := by
    rw [Option.eq_none_iff_forall_ne_some]
    intro rest hrest
    have hdot : '.' ∈ name.toList := by
      rw [after?_eq_some_iff.mp hrest]
      exact List.mem_append_left _ (by decide)
    exact absurd (h '.' hdot) (by decide)
  rw [slotName?, hafter]
  rfl

section Value

variable {V : Type} (eval : Store V → String → V) (s : Store V) {name : String}

theorem Store.value_slot (h : ∀ c ∈ name.toList, isNameChar c = true) :
    s.value eval (Slot.read name) = s.slots name := by
  unfold Store.value
  rw [slotName?_read h]

theorem Store.value_local (h : ∀ c ∈ name.toList, isNameChar c = true) :
    s.value eval name = (s.locals name).getD (eval s name) := by
  unfold Store.value
  rw [slotName?_eq_none h]

end Value

section Runs

variable {V : Type} {eval : Store V → String → V} {s s' : Store V}

theorem exists_runs (eval : Store V → String → V) (texts : List String) (s : Store V) :
    ∃ s', Runs eval texts s s' := by
  induction texts generalizing s with
  | nil => exact ⟨s, .done s⟩
  | cons text texts ih =>
    have hexec : ∃ between, Executes eval text s between := by
      unfold Executes
      split
      · exact ⟨_, rfl⟩
      · exact ⟨s, .refl⟩
    obtain ⟨between, hexec⟩ := hexec
    obtain ⟨s', hruns⟩ := ih between
    exact ⟨s', .step hexec hruns⟩

/-- Captures leave the slots as they are and give each variable's value to its local variable. -/
theorem runs_captures {names : List String} (hnames : ∀ name ∈ names, IsName name.toList)
    (h : Runs eval (names.map fun name => "local " ++ Capture.localOf name ++ " = " ++ Slot.read name)
      s s') :
    s'.slots = s.slots ∧
      (∀ name ∈ names, s'.locals (Capture.localOf name) = some (s.slots name)) ∧
      ∀ name ∉ names, s'.locals (Capture.localOf name) = s.locals (Capture.localOf name) := by
  induction names generalizing s with
  | nil =>
    cases h
    exact ⟨rfl, by simp, fun _ _ => rfl⟩
  | cons name names ih =>
    obtain ⟨hname, hrest⟩ := List.forall_mem_cons.mp hnames
    rcases h with _ | ⟨hexec, h⟩
    simp only [Executes, single?_capture hname] at hexec
    subst hexec
    obtain ⟨hslots, hbound, hother⟩ := ih hrest h
    have hvalue := Store.value_slot eval s hname.2
    refine ⟨hslots, fun name' hmem => ?_, fun name' hmem => ?_⟩
    · by_cases hlater : name' ∈ names
      · exact hbound name' hlater
      · obtain rfl : name' = name := (List.mem_cons.mp hmem).resolve_right hlater
        rw [hother name' hlater]
        exact (Function.update_self _ _ _).trans (congrArg some hvalue)
    · obtain ⟨hne, hlater⟩ := not_or.mp (fun h => hmem (List.mem_cons.mpr h))
      rw [hother name' hlater]
      exact Function.update_of_ne (fun heq => hne (Capture.localOf_injective heq)) _ _

/-- Texts that only write some slots keep all other slots and all captured values. -/
theorem keeps_runs {W : String → Prop} {texts : List String}
    (htexts : ∀ text ∈ texts, ∀ s s' : Store V, Executes eval text s s' → Keeps W s s')
    (h : Runs eval texts s s') : Keeps W s s' := by
  induction texts generalizing s with
  | nil =>
    cases h
    exact .refl W _
  | cons text texts ih =>
    obtain ⟨htext, htexts⟩ := List.forall_mem_cons.mp htexts
    rcases h with _ | ⟨hexec, h⟩
    exact (htext _ _ hexec).trans (ih htexts h)

theorem keeps_write {W : String → Prop} {name : String} (hname : IsName name.toList) (hW : W name)
    {expr : String} (h : Executes eval (Slot.read name ++ " = " ++ expr) s s') : Keeps W s s' := by
  simp only [Executes, single?_write hname] at h
  subst h
  refine ⟨fun slot hslot => ?_, fun _ _ => rfl⟩
  have hne : slot ≠ name := fun heq => hslot (heq ▸ hW)
  exact Function.update_of_ne hne _ _

end Runs

end JokerRules
