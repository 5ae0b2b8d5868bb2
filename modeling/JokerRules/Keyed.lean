/-!
Finite maps from names, kept as lists in strictly increasing order of the names. Two maps with the
same bindings are therefore equal.
-/

namespace JokerRules

structure Keyed (α : Type) where
  entries : List (String × α)
  sorted : entries.Pairwise fun a b => a.1 < b.1
deriving DecidableEq

namespace Keyed

variable {α : Type}

def empty : Keyed α := ⟨[], .nil⟩

instance : EmptyCollection (Keyed α) := ⟨empty⟩

instance : Inhabited (Keyed α) := ⟨empty⟩

/-- Puts a binding in its place, over an older one of the same name. -/
def place (key : String) (value : α) : List (String × α) → List (String × α)
  | [] => [(key, value)]
  | entry :: rest =>
    if key < entry.1 then (key, value) :: entry :: rest
    else if key = entry.1 then (key, value) :: rest
    else entry :: place key value rest

theorem mem_place {key : String} {value : α} {entries : List (String × α)} {e : String × α}
    (h : e ∈ place key value entries) : e = (key, value) ∨ e ∈ entries := by
  induction entries with
  | nil => simpa [place] using h
  | cons entry rest ih =>
    unfold place at h
    split at h
    · simpa using h
    · split at h
      · rcases List.mem_cons.mp h with rfl | h
        · exact .inl rfl
        · exact .inr (List.mem_cons_of_mem _ h)
      · rcases List.mem_cons.mp h with rfl | h
        · exact .inr List.mem_cons_self
        · exact (ih h).imp_right (List.mem_cons_of_mem _)

theorem place_sorted (key : String) (value : α) {entries : List (String × α)}
    (h : entries.Pairwise fun a b => a.1 < b.1) :
    (place key value entries).Pairwise fun a b => a.1 < b.1 := by
  induction entries with
  | nil => simp [place]
  | cons entry rest ih =>
    obtain ⟨hentry, hrest⟩ := List.pairwise_cons.mp h
    unfold place
    split
    · rename_i hlt
      refine List.pairwise_cons.mpr ⟨fun b hb => ?_, h⟩
      rcases List.mem_cons.mp hb with rfl | hb
      · exact hlt
      · exact String.lt_trans hlt (hentry b hb)
    · rename_i hlt
      split
      · rename_i heq
        exact List.pairwise_cons.mpr ⟨fun b hb => heq ▸ hentry b hb, hrest⟩
      · rename_i hne
        refine List.pairwise_cons.mpr ⟨fun b hb => ?_, ih hrest⟩
        rcases mem_place hb with rfl | hb
        · have hle : entry.1 ≤ key := String.not_lt.mp hlt
          exact Decidable.byContradiction fun hge =>
            hne (String.le_antisymm (String.not_lt.mp hge) hle)
        · exact hentry b hb

def insert (m : Keyed α) (key : String) (value : α) : Keyed α :=
  ⟨place key value m.entries, place_sorted key value m.sorted⟩

def ofList (bindings : List (String × α)) : Keyed α :=
  bindings.foldl (fun m b => m.insert b.1 b.2) empty

def get? (m : Keyed α) (key : String) : Option α :=
  m.entries.lookup key

def getD (m : Keyed α) (key : String) (default : α) : α :=
  (m.get? key).getD default

theorem lookup_cons (entry : String × α) (rest : List (String × α)) (name : String) :
    (entry :: rest).lookup name = if name = entry.1 then some entry.2 else rest.lookup name := by
  obtain ⟨key, value⟩ := entry
  by_cases h : name = key
  · simp [h]
  · simp [List.lookup_cons, h, beq_eq_false_iff_ne.mpr h]

theorem lookup_place (key : String) (value : α) (entries : List (String × α)) (name : String) :
    (place key value entries).lookup name =
      if name = key then some value else entries.lookup name := by
  induction entries with
  | nil => simp [place, lookup_cons]
  | cons entry rest ih =>
    unfold place
    split
    · simp [lookup_cons]
    · split <;> grind [lookup_cons]

@[simp]
theorem get?_insert (m : Keyed α) (key : String) (value : α) (name : String) :
    (m.insert key value).get? name = if name = key then some value else m.get? name :=
  lookup_place key value m.entries name

@[simp]
theorem get?_empty (name : String) : (empty : Keyed α).get? name = none :=
  rfl

theorem mem_entries_of_get? {m : Keyed α} {key : String} {value : α}
    (h : m.get? key = some value) : (key, value) ∈ m.entries := by
  unfold get? at h
  generalize m.entries = entries at h ⊢
  induction entries with
  | nil => cases h
  | cons entry entries ih =>
    rw [lookup_cons] at h
    split at h
    · next hkey =>
      obtain rfl := Option.some.inj h
      exact hkey ▸ List.mem_cons_self
    · exact List.mem_cons_of_mem _ (ih h)

theorem mem_of_mem_ofList {bindings : List (String × α)} {e : String × α}
    (h : e ∈ (ofList bindings).entries) : e ∈ bindings := by
  have hfold : ∀ (bs : List (String × α)) (m : Keyed α),
      e ∈ (bs.foldl (fun m b => m.insert b.1 b.2) m).entries → e ∈ bs ∨ e ∈ m.entries := by
    intro bs
    induction bs with
    | nil => exact fun m h => .inr h
    | cons b bs ih =>
      intro m h
      rcases ih _ h with h | h
      · exact .inl (List.mem_cons_of_mem _ h)
      · rcases mem_place h with rfl | h
        · exact .inl List.mem_cons_self
        · exact .inr h
  exact (hfold bindings empty h).resolve_right List.not_mem_nil

theorem mem_of_get?_ofList {bindings : List (String × α)} {key : String} {value : α}
    (h : (ofList bindings).get? key = some value) : (key, value) ∈ bindings :=
  mem_of_mem_ofList (mem_entries_of_get? h)

def keys (m : Keyed α) : List String :=
  m.entries.map (·.1)

theorem mem_keys_iff (m : Keyed α) (name : String) :
    name ∈ m.keys ↔ (m.get? name).isSome = true := by
  unfold keys get?
  induction m.entries with
  | nil => simp
  | cons entry entries ih =>
    rw [lookup_cons, List.map_cons, List.mem_cons, ih]
    split <;> simp_all

def size (m : Keyed α) : Nat :=
  m.entries.length

def isEmpty (m : Keyed α) : Bool :=
  m.entries.isEmpty

end Keyed

/-- A finite set of names. -/
abbrev NameSet := Keyed Unit

namespace NameSet

def add (s : NameSet) (name : String) : NameSet :=
  s.insert name ()

def ofNames (names : List String) : NameSet :=
  names.foldl add Keyed.empty

def contains (s : NameSet) (name : String) : Bool :=
  (s.get? name).isSome

theorem contains_add (names : NameSet) (name name' : String) :
    contains (add names name) name' = true ↔ name' = name ∨ contains names name' = true := by
  simp only [contains, add, Keyed.get?_insert]
  split <;> simp_all

theorem contains_ofNames {names : List String} {name : String} :
    contains (ofNames names) name = true ↔ name ∈ names := by
  have hfold : ∀ (ns : List String) (m : NameSet),
      contains (ns.foldl add m) name = true ↔ name ∈ ns ∨ contains m name = true := by
    intro ns
    induction ns with
    | nil => simp
    | cons n ns ih =>
      intro m
      rw [List.foldl_cons, ih, contains_add, List.mem_cons, or_left_comm, or_assoc]
  rw [ofNames, hfold]
  simp [contains]

end NameSet

end JokerRules
