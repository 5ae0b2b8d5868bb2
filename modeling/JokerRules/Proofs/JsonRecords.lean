import JokerRules.Item.Json
import JokerRules.Proofs.JsonText

/-! The records of an item in JSON. What is written for a record reads back as the same record. -/

namespace JokerRules

open Json

/-- What is written reads back. -/
def ReadsBack {α β : Type} (read : β → Option α) (write : α → β) : Prop :=
  ∀ a, read (write a) = some a

theorem mapM_map {α β : Type} {read : β → Option α} {write : α → β} (h : ReadsBack read write)
    (as : List α) : (as.map write).mapM read = some as := by
  induction as with
  | nil => rfl
  | cons a as ih =>
    rw [List.map_cons, List.mapM_cons, h a, ih]
    rfl

theorem exists_of_mem_mapM {α β : Type} {read : β → Option α} {bs : List β} {as : List α}
    (h : bs.mapM read = some as) : ∀ a ∈ as, ∃ b ∈ bs, read b = some a := by
  induction bs generalizing as with
  | nil =>
    obtain rfl := Option.some.inj h
    exact fun _ => nofun
  | cons b bs ih =>
    rw [List.mapM_cons] at h
    obtain ⟨first, hfirst, hrest⟩ := Option.bind_eq_some_iff.mp h
    obtain ⟨rest, hmapped, heq⟩ := Option.bind_eq_some_iff.mp hrest
    obtain rfl := Option.some.inj heq
    intro a ha
    rcases List.mem_cons.mp ha with rfl | ha
    · exact ⟨b, List.mem_cons_self, hfirst⟩
    · obtain ⟨b', hb', hread⟩ := ih hmapped a ha
      exact ⟨b', List.mem_cons_of_mem _ hb', hread⟩

theorem list?_arr {α : Type} {read : Json → Option α} {write : α → Json} (h : ReadsBack read write)
    (as : List α) : list? read (.arr (as.map write)) = some as :=
  mapM_map h as

theorem nullable_ofOption {α : Type} {read : Json → Option α} {write : α → Json}
    (h : ReadsBack read write) (hnull : ∀ a, write a ≠ .null) (a : Option α) :
    nullable read (ofOption write a) = some a := by
  cases a with
  | none => rfl
  | some a =>
    rw [ofOption]
    unfold nullable
    split
    · next heq => exact absurd heq (hnull a)
    · rw [h a, Option.map_some]

theorem str?_str : ReadsBack str? Json.str :=
  fun _ => rfl

theorem nullable_str (text : Option String) : nullable str? (ofOption .str text) = some text :=
  nullable_ofOption str?_str (fun _ => nofun) text

theorem word?_ofWord : ReadsBack word? ofWord := by
  intro n
  have hsize : (n.toNat : Int) < (UInt32.size : Nat) := by exact_mod_cast n.toNat_lt_size
  rw [ofWord, word?, if_pos ⟨by omega, hsize⟩, Int.toNat_natCast, UInt32.ofNat_toNat]

namespace Keyed

variable {α : Type}

/-- A binding above all others goes to the end. -/
theorem place_eq_append {key : String} {value : α} {entries : List (String × α)}
    (h : ∀ e ∈ entries, e.1 < key) : place key value entries = entries ++ [(key, value)] := by
  induction entries with
  | nil => rfl
  | cons entry rest ih =>
    have hlt := h entry List.mem_cons_self
    have hne : ¬key = entry.1 := by
      intro heq
      rw [heq] at hlt
      exact String.lt_irrefl _ hlt
    have hrest := ih fun e he => h e (List.mem_cons_of_mem _ he)
    rw [place, if_neg (String.lt_asymm hlt), if_neg hne, hrest]
    rfl

/-- Bindings in order are kept in this order. -/
theorem entries_foldl_insert {bindings : List (String × α)} {m : Keyed α}
    (h : (m.entries ++ bindings).Pairwise fun a b => a.1 < b.1) :
    (bindings.foldl (fun m b => m.insert b.1 b.2) m).entries = m.entries ++ bindings := by
  induction bindings generalizing m with
  | nil => simp
  | cons b bindings ih =>
    have hlast : (m.insert b.1 b.2).entries = m.entries ++ [b] :=
      place_eq_append fun e he => (List.pairwise_append.mp h).2.2 e he b List.mem_cons_self
    have hrest : ((m.insert b.1 b.2).entries ++ bindings).Pairwise fun a b => a.1 < b.1 := by
      rwa [hlast, List.append_assoc]
    rw [List.foldl_cons, ih hrest, hlast, List.append_assoc]
    rfl

theorem ofList_entries (m : Keyed α) : ofList m.entries = m := by
  have hentries : (ofList m.entries).entries = m.entries :=
    entries_foldl_insert (m := empty) m.sorted
  generalize ofList m.entries = m' at hentries
  obtain ⟨entries, sorted⟩ := m
  obtain ⟨entries', sorted'⟩ := m'
  obtain rfl : entries' = entries := hentries
  rfl

end Keyed

theorem Value.readsBack : ReadsBack ofJson? toJson := by
  intro v
  cases v with
  | bool b => rfl
  | int n => rw [toJson, ofJson?, if_pos ⟨n.le_toInt, n.toInt_le⟩, Int64.ofInt_toInt]
  | real x => rfl
  | str s => rfl

theorem Params.readsBack : ReadsBack ofJson? toJson := by
  intro p
  have hmember : ReadsBack
      (fun m : String × Json => (Value.ofJson? m.2).map fun w => (m.1, w))
      (fun e : String × Value => (e.1, e.2.toJson)) := by
    intro e
    simp only [Value.readsBack e.2, Option.map_some]
  rw [toJson, ofJson?, obj?, Option.bind_some, mapM_map hmember, Option.map_some, Keyed.ofList_entries]

theorem Joiner.readsBack : ReadsBack ofJson? toJson :=
  ofWord?_word

theorem Condition.readsBack : ReadsBack ofJson? toJson := by
  intro c
  have hread : ofJson? c.toJson = do
      let params ← Params.ofJson? c.params.toJson
      let next ← Joiner.ofJson? c.next.toJson
      return { c with kind := .ofId c.kind.id, params, next } := rfl
  rw [hread, Params.readsBack c.params, Joiner.readsBack c.next, ConditionKind.ofId_id]
  rfl

theorem ConditionGroup.readsBack : ReadsBack ofJson? toJson := by
  intro g
  have hread : ofJson? g.toJson = do
      let conditions ← list? Condition.ofJson? (.arr (g.conditions.map Condition.toJson))
      let next ← Joiner.ofJson? g.next.toJson
      return { conditions, next } := rfl
  rw [hread, list?_arr Condition.readsBack, Joiner.readsBack g.next]
  rfl

theorem Effect.readsBack : ReadsBack ofJson? toJson := by
  intro e
  have hread : ofJson? e.toJson = do
      let params ← Params.ofJson? e.params.toJson
      let message ← nullable str? (ofOption .str e.message)
      return { e with kind := .ofId e.kind.id, params, message } := rfl
  rw [hread, Params.readsBack e.params, nullable_str, EffectKind.ofId_id]
  rfl

theorem RandomGroup.readsBack : ReadsBack ofJson? toJson := by
  intro g
  have hread : ∀ numerator denominator effects, ofJson? (.obj [("id", .str g.id),
      ("numerator", numerator), ("denominator", denominator), ("effects", effects)]) = do
        let numerator ← word? numerator
        let denominator ← word? denominator
        let effects ← list? Effect.ofJson? effects
        return { g with numerator, denominator, effects } := fun _ _ _ => rfl
  rw [toJson, hread, word?_ofWord g.numerator, word?_ofWord g.denominator,
    list?_arr Effect.readsBack]
  rfl

theorem Trigger.readsBack : ReadsBack ofJson? fun t => .str t.id :=
  ofId?_id

theorem Rule.readsBack : ReadsBack ofJson? toJson := by
  intro r
  have hread : ofJson? r.toJson = do
      let trigger ← Trigger.ofJson? (.str r.trigger.id)
      let conditionGroups ←
        list? ConditionGroup.ofJson? (.arr (r.conditionGroups.map ConditionGroup.toJson))
      let effects ← list? Effect.ofJson? (.arr (r.effects.map Effect.toJson))
      let randomGroups ← list? RandomGroup.ofJson? (.arr (r.randomGroups.map RandomGroup.toJson))
      return { r with trigger, conditionGroups, effects, randomGroups } := rfl
  rw [hread, Trigger.readsBack r.trigger, list?_arr ConditionGroup.readsBack,
    list?_arr Effect.readsBack, list?_arr RandomGroup.readsBack]
  rfl

theorem UserVariable.readsBack : ReadsBack ofJson? toJson := by
  intro u
  have hread : ofJson? u.toJson = do
      let initial ← Value.ofJson? u.initial.toJson
      let description ← nullable str? (ofOption .str u.description)
      return { u with initial, description } := rfl
  rw [hread, Value.readsBack u.initial, nullable_str]
  rfl

theorem Rarity.readsBack : ReadsBack ofJson? toJson := by
  intro r
  cases r <;> rfl

theorem Item.readsBack : ReadsBack ofJson? toJson := by
  intro item
  have hread : ofJson? item.toJson = do
      let cost ← nullable word? (ofOption ofWord item.cost)
      let rarity ← Rarity.ofJson? item.rarity.toJson
      let unlockDescription ← nullable str? (ofOption .str item.unlockDescription)
      let rules ← list? Rule.ofJson? (.arr (item.rules.map Rule.toJson))
      let userVariables ←
        list? UserVariable.ofJson? (.arr (item.userVariables.map UserVariable.toJson))
      return { item with cost, rarity, unlockDescription, rules, userVariables } := rfl
  rw [hread, nullable_ofOption word?_ofWord (fun _ => nofun), Rarity.readsBack item.rarity,
    nullable_str, list?_arr Rule.readsBack, list?_arr UserVariable.readsBack]
  rfl

end JokerRules
