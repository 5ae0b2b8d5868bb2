import JokerRules.Proofs.JsonRecords

/-! The JSON form of items. Reading an item forgets what an item does not have: members under other
names, the difference between a missing member and its default, the names of unknown kinds. What it
keeps is written in one form, and this form reads back as the same item. -/

namespace JokerRules

open Json

/-- What a readable value stands for is written in a readable form, `depth` levels deep. -/
def KeepsReadable {α : Type} (depth : Nat) (read : Json → Option α) (write : α → Json) : Prop :=
  ∀ room v a, Readable room v → read v = some a → ∀ outer, Readable (outer + depth) (write a)

/-- Members with readable values. -/
def ReadableMembers (members : List (String × Json)) : Prop :=
  ∀ m ∈ members, ∃ room, Readable room m.2

section Parts

variable {α : Type} {depth : Nat} {read : Json → Option α} {write : α → Json}

theorem readableMembers_of_record? {room : Nat} {v : Json} {fields : List String}
    {ms : List (String × Json)} (h : Readable room v) (hms : v.record? fields = some ms) :
    ReadableMembers ms := by
  intro m hm
  cases h with
  | obj h =>
    obtain rfl := Option.some.inj hms
    exact ⟨_, h m hm⟩
  | arr h =>
    obtain ⟨-, rfl⟩ := Option.ite_some_none_eq_some.mp hms
    exact ⟨_, h m.2 (List.of_mem_zip hm).2⟩
  | _ => exact nomatch hms

theorem mem_of_member? {members : List (String × Json)} {name : String} {v : Json}
    (h : member? members name = some v) : ∃ m ∈ members, m.2 = v := by
  obtain ⟨before, after, rfl, -⟩ := List.lookup_eq_some_iff.mp h
  exact ⟨(name, v), by simp, rfl⟩

theorem KeepsReadable.required (hkeeps : KeepsReadable depth read write)
    {members : List (String × Json)} (hmembers : ReadableMembers members) {name : String} {a : α}
    (h : required members name read = some a) (outer : Nat) : Readable (outer + depth) (write a) := by
  obtain ⟨v, hmember, hread⟩ := Option.bind_eq_some_iff.mp h
  obtain ⟨m, hm, rfl⟩ := mem_of_member? hmember
  obtain ⟨room, hreadable⟩ := hmembers m hm
  exact hkeeps room _ a hreadable hread outer

theorem KeepsReadable.defaulted (hkeeps : KeepsReadable depth read write)
    {members : List (String × Json)} (hmembers : ReadableMembers members) {name : String}
    {default a : α} (hdefault : ∀ outer, Readable (outer + depth) (write default))
    (h : defaulted members name default read = some a) (outer : Nat) :
    Readable (outer + depth) (write a) := by
  unfold Json.defaulted at h
  split at h
  · exact Option.some.inj h ▸ hdefault outer
  · next v hmember =>
    obtain ⟨m, hm, rfl⟩ := mem_of_member? hmember
    obtain ⟨room, hreadable⟩ := hmembers m hm
    exact hkeeps room _ a hreadable h outer

theorem KeepsReadable.nullable (hkeeps : KeepsReadable depth read write) :
    KeepsReadable depth (nullable read) (ofOption write) := by
  intro room v a hreadable h outer
  unfold Json.nullable at h
  split at h
  · obtain rfl := Option.some.inj h
    exact .null
  · obtain ⟨b, hb, rfl⟩ := Option.map_eq_some_iff.mp h
    exact hkeeps room v b hreadable hb outer

theorem KeepsReadable.list (hkeeps : KeepsReadable depth read write) :
    KeepsReadable (depth + 1) (list? read) fun as => .arr (as.map write) := by
  intro room v as hreadable h outer
  obtain ⟨es, hes, hmapped⟩ := Option.bind_eq_some_iff.mp h
  cases hreadable with
  | arr helements =>
    obtain rfl := Option.some.inj hes
    refine .arr fun e he => ?_
    obtain ⟨a, ha, rfl⟩ := List.mem_map.mp he
    obtain ⟨b, hb, hread⟩ := exists_of_mem_mapM hmapped a ha
    exact hkeeps _ b a (helements b hb) hread outer
  | _ => exact nomatch hes

theorem KeepsReadable.defaultedList (hkeeps : KeepsReadable depth read write)
    {members : List (String × Json)} (hmembers : ReadableMembers members) {name : String} {as : List α}
    (h : Json.defaulted members name [] (list? read) = some as) (outer : Nat) :
    Readable (outer + (depth + 1)) (.arr (as.map write)) :=
  hkeeps.list.defaulted hmembers (fun _ => .arr (by simp)) h outer

theorem readable_ofOption_str {room : Nat} (text : Option String) :
    Readable room (ofOption .str text) := by
  cases text with
  | none => exact .null
  | some s => exact .str s

theorem keepsReadable_word : KeepsReadable 0 word? ofWord := by
  intro room v n hreadable h outer
  cases hreadable with
  | @int room k hfinite =>
    obtain ⟨⟨hnonneg, hlt⟩, rfl⟩ := Option.ite_some_none_eq_some.mp h
    have hword : ofWord (UInt32.ofNat k.toNat) = .int k := by
      rw [ofWord, UInt32.toNat_ofNat_of_lt' (by omega), Int.toNat_of_nonneg hnonneg]
    rw [hword]
    exact .int hfinite
  | _ => cases h

end Parts

theorem Keyed.nodup_names {α : Type} (m : Keyed α) : (m.entries.map Prod.fst).Nodup := by
  refine List.pairwise_map.mpr (m.sorted.imp fun {a b} hlt heq => ?_)
  rw [heq] at hlt
  exact String.lt_irrefl _ hlt

theorem Value.keepsReadable : KeepsReadable 0 ofJson? toJson := by
  intro room v a hreadable h outer
  cases hreadable with
  | bool b =>
    obtain rfl := Option.some.inj h
    exact .bool b
  | @int room n hfinite =>
    rw [ofJson?] at h
    split at h
    · next hrange =>
      obtain rfl := Option.some.inj h
      rw [toJson, Int64.toInt_ofInt_of_le hrange.1 (Int.lt_add_one_of_le hrange.2)]
      exact .int hfinite
    · obtain rfl := Option.some.inj h
      exact .real hfinite
  | real hfinite =>
    obtain rfl := Option.some.inj h
    exact .real hfinite
  | str s =>
    obtain rfl := Option.some.inj h
    exact .str s
  | _ => cases h

theorem Params.keepsReadable : KeepsReadable 1 ofJson? toJson := by
  intro room v p hreadable h outer
  obtain ⟨ms, hms, hmapped⟩ := Option.bind_eq_some_iff.mp h
  obtain ⟨bindings, hbindings, rfl⟩ := Option.map_eq_some_iff.mp hmapped
  cases hreadable with
  | obj hmembers =>
    obtain rfl := Option.some.inj hms
    refine .obj (fun m hm => ?_) ?_
    · obtain ⟨e, he, rfl⟩ := List.mem_map.mp hm
      obtain ⟨member, hmember, hread⟩ := exists_of_mem_mapM hbindings e (Keyed.mem_of_mem_ofList he)
      obtain ⟨w, hw, rfl⟩ := Option.map_eq_some_iff.mp hread
      exact Value.keepsReadable _ _ w (hmembers member hmember) hw outer
    · rw [List.map_map]
      exact (Keyed.ofList bindings).nodup_names
  | _ => exact nomatch hms

theorem Params.readable_empty (outer : Nat) : Readable (outer + 1) (toJson {}) :=
  .obj (fun _ => nofun) List.nodup_nil

theorem Condition.keepsReadable : KeepsReadable 2 ofJson? toJson := by
  intro room v c hreadable h outer
  simp only [ofJson?, Option.bind_eq_bind, Option.bind_eq_some_iff, Option.pure_def,
    Option.some.injEq] at h
  obtain ⟨ms, hms, id, -, kind, -, params, hparams, negate, -, next, -, rfl⟩ := h
  have hmembers := readableMembers_of_record? hreadable hms
  have hparams := Params.keepsReadable.defaulted hmembers Params.readable_empty hparams
  refine .obj ?_ (by simp)
  simp only [List.forall_mem_cons]
  exact ⟨.str _, .str _, hparams outer, .bool _, .str _, fun _ => nofun⟩

theorem ConditionGroup.keepsReadable : KeepsReadable 4 ofJson? toJson := by
  intro room v g hreadable h outer
  simp only [ofJson?, Option.bind_eq_bind, Option.bind_eq_some_iff, Option.pure_def,
    Option.some.injEq] at h
  obtain ⟨ms, hms, conditions, hconditions, next, -, rfl⟩ := h
  have hmembers := readableMembers_of_record? hreadable hms
  have hconditions := Condition.keepsReadable.defaultedList hmembers hconditions
  refine .obj ?_ (by simp)
  simp only [List.forall_mem_cons]
  exact ⟨hconditions outer, .str _, fun _ => nofun⟩

theorem Effect.keepsReadable : KeepsReadable 2 ofJson? toJson := by
  intro room v e hreadable h outer
  simp only [ofJson?, Option.bind_eq_bind, Option.bind_eq_some_iff, Option.pure_def,
    Option.some.injEq] at h
  obtain ⟨ms, hms, id, -, kind, -, params, hparams, message, -, rfl⟩ := h
  have hmembers := readableMembers_of_record? hreadable hms
  have hparams := Params.keepsReadable.defaulted hmembers Params.readable_empty hparams
  refine .obj ?_ (by simp)
  simp only [List.forall_mem_cons]
  exact ⟨.str _, .str _, hparams outer, readable_ofOption_str message, fun _ => nofun⟩

theorem RandomGroup.keepsReadable : KeepsReadable 4 ofJson? toJson := by
  intro room v g hreadable h outer
  simp only [ofJson?, Option.bind_eq_bind, Option.bind_eq_some_iff, Option.pure_def,
    Option.some.injEq] at h
  obtain ⟨ms, hms, id, -, numerator, hnumerator, denominator, hdenominator, effects, heffects, rfl⟩ := h
  have hmembers := readableMembers_of_record? hreadable hms
  have hnumerator := keepsReadable_word.required hmembers hnumerator
  have hdenominator := keepsReadable_word.required hmembers hdenominator
  have heffects := Effect.keepsReadable.defaultedList hmembers heffects
  refine .obj ?_ (by simp)
  simp only [List.forall_mem_cons]
  exact ⟨.str _, hnumerator _, hdenominator _, heffects outer, fun _ => nofun⟩

theorem Rule.keepsReadable : KeepsReadable 6 ofJson? toJson := by
  intro room v r hreadable h outer
  simp only [ofJson?, Option.bind_eq_bind, Option.bind_eq_some_iff, Option.pure_def,
    Option.some.injEq] at h
  obtain ⟨ms, hms, id, -, trigger, -, conditionGroups, hconditionGroups, effects, heffects,
    randomGroups, hrandomGroups, rfl⟩ := h
  have hmembers := readableMembers_of_record? hreadable hms
  have hconditionGroups := ConditionGroup.keepsReadable.defaultedList hmembers hconditionGroups
  have heffects := Effect.keepsReadable.defaultedList hmembers heffects
  have hrandomGroups := RandomGroup.keepsReadable.defaultedList hmembers hrandomGroups
  refine .obj ?_ (by simp)
  simp only [List.forall_mem_cons]
  exact ⟨.str _, .str _, hconditionGroups outer, heffects (outer + 2), hrandomGroups outer,
    fun _ => nofun⟩

theorem UserVariable.keepsReadable : KeepsReadable 1 ofJson? toJson := by
  intro room v u hreadable h outer
  simp only [ofJson?, Option.bind_eq_bind, Option.bind_eq_some_iff, Option.pure_def,
    Option.some.injEq] at h
  obtain ⟨ms, hms, id, -, name, -, initial, hinitial, description, -, rfl⟩ := h
  have hmembers := readableMembers_of_record? hreadable hms
  have hinitial := Value.keepsReadable.required hmembers hinitial
  refine .obj ?_ (by simp)
  simp only [List.forall_mem_cons]
  exact ⟨.str _, .str _, hinitial outer, readable_ofOption_str description, fun _ => nofun⟩

theorem Rarity.readable (r : Rarity) (outer : Nat) : Readable (outer + 1) r.toJson := by
  cases r with
  | custom key => exact .obj (List.forall_mem_singleton.mpr (.str key)) (by simp)
  | _ => exact .str _

/-- The members that hold numbers, of those that an item is read from. -/
theorem Item.exists_record {v : Json} {item : Item} (h : ofJson? v = some item) :
    ∃ ms, v.record? fields = some ms ∧
      defaulted ms "cost" none (nullable word?) = some item.cost ∧
      defaulted ms "rules" [] (list? Rule.ofJson?) = some item.rules ∧
      defaulted ms "user_variables" [] (list? UserVariable.ofJson?) = some item.userVariables := by
  obtain ⟨ms, hms, h⟩ := Option.bind_eq_some_iff.mp h
  obtain ⟨id, -, h⟩ := Option.bind_eq_some_iff.mp h
  obtain ⟨name, -, h⟩ := Option.bind_eq_some_iff.mp h
  obtain ⟨key, -, h⟩ := Option.bind_eq_some_iff.mp h
  obtain ⟨description, -, h⟩ := Option.bind_eq_some_iff.mp h
  obtain ⟨cost, hcost, h⟩ := Option.bind_eq_some_iff.mp h
  obtain ⟨rarity, -, h⟩ := Option.bind_eq_some_iff.mp h
  obtain ⟨blueprintCompat, -, h⟩ := Option.bind_eq_some_iff.mp h
  obtain ⟨eternalCompat, -, h⟩ := Option.bind_eq_some_iff.mp h
  obtain ⟨perishableCompat, -, h⟩ := Option.bind_eq_some_iff.mp h
  obtain ⟨unlocked, -, h⟩ := Option.bind_eq_some_iff.mp h
  obtain ⟨discovered, -, h⟩ := Option.bind_eq_some_iff.mp h
  obtain ⟨unlockDescription, -, h⟩ := Option.bind_eq_some_iff.mp h
  obtain ⟨hasOverlay, -, h⟩ := Option.bind_eq_some_iff.mp h
  obtain ⟨rules, hrules, h⟩ := Option.bind_eq_some_iff.mp h
  obtain ⟨userVariables, huserVariables, h⟩ := Option.bind_eq_some_iff.mp h
  obtain rfl := Option.some.inj h
  exact ⟨ms, hms, hcost, hrules, huserVariables⟩

theorem Item.keepsReadable : KeepsReadable 8 ofJson? toJson := by
  intro room v item hreadable h outer
  obtain ⟨ms, hms, hcost, hrules, huserVariables⟩ := exists_record h
  have hmembers := readableMembers_of_record? hreadable hms
  have hcost := keepsReadable_word.nullable.defaulted hmembers (fun _ => .null) hcost
  have hrules := Rule.keepsReadable.defaultedList hmembers hrules
  have huserVariables := UserVariable.keepsReadable.defaultedList hmembers huserVariables
  refine .obj ?_ (show fields.Nodup by decide)
  simp only [List.forall_mem_cons]
  exact ⟨.str _, .str _, .str _, .str _, hcost _, item.rarity.readable _, .bool _, .bool _, .bool _,
    .bool _, .bool _, readable_ofOption_str item.unlockDescription, .bool _, hrules outer,
    huserVariables (outer + 5), fun _ => nofun⟩

namespace Item

/-- The form in which the item that a value stands for is written. -/
def normal? (v : Json) : Option Json :=
  (ofJson? v).map toJson

def read? (text : String) : Option Item :=
  (Json.read? text).bind ofJson?

def write (item : Item) : String :=
  Json.write item.toJson

/-- The text in which the item that a text stands for is written. -/
def rewrite? (text : String) : Option String :=
  (read? text).map write

theorem read?_write {text : String} {item : Item} (h : read? text = some item) :
    read? item.write = some item := by
  obtain ⟨v, hv, hitem⟩ := Option.bind_eq_some_iff.mp h
  have hreadable := keepsReadable _ v item (readable_of_read? hv) hitem 119
  rw [read?, write, Json.read?_write hreadable, Option.bind_some, readsBack item]

end Item

/-- Every item reads back from its form, and the form of what has been read stays as it is when it
is read and written again. The same holds of texts. -/
theorem item_form_reads_back :
    (∀ item : Item, Item.ofJson? item.toJson = some item) ∧
    (∀ v, (Item.normal? v).bind Item.normal? = Item.normal? v) ∧
    ∀ text, (Item.read? text).bind (fun item => Item.read? item.write) = Item.read? text ∧
      (Item.rewrite? text).bind Item.rewrite? = Item.rewrite? text := by
  refine ⟨Item.readsBack, fun v => ?_, fun text => ?_⟩
  · unfold Item.normal?
    cases Item.ofJson? v with
    | none => rfl
    | some item => rw [Option.map_some, Option.bind_some, Item.readsBack item, Option.map_some]
  · unfold Item.rewrite?
    cases hread : Item.read? text with
    | none => exact ⟨rfl, rfl⟩
    | some item =>
      rw [Option.map_some, Option.bind_some, Option.bind_some, Item.read?_write hread, Option.map_some]
      exact ⟨rfl, rfl⟩

end JokerRules
