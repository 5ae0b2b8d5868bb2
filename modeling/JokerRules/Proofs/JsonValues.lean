import JokerRules.Proofs.JsonNumbers

/-! The values that reading JSON text can give. Their numbers are in range, the nesting is not too
deep and no object has two members of one name. -/

namespace JokerRules.Json

/-- What reading can give where arrays and objects may stand `room` levels deep. -/
inductive Readable : Nat → Json → Prop
  | null {room : Nat} : Readable room null
  | bool {room : Nat} (b : Bool) : Readable room (bool b)
  | int {room : Nat} {n : Int} (h : (Binary64.ofInt n).isFinite = true) : Readable room (int n)
  | real {room : Nat} {x : Binary64} (h : x.isFinite = true) : Readable room (real x)
  | str {room : Nat} (s : String) : Readable room (str s)
  | arr {room : Nat} {es : List Json} (h : ∀ e ∈ es, Readable room e) : Readable (room + 1) (arr es)
  | obj {room : Nat} {ms : List (String × Json)} (h : ∀ m ∈ ms, Readable room m.2)
      (hnames : (ms.map Prod.fst).Nodup) : Readable (room + 1) (obj ms)

theorem mem_of_mem_lastMembers {m : String × Json} {ms : List (String × Json)}
    (h : m ∈ lastMembers ms) : m ∈ ms := by
  induction ms with
  | nil => exact h
  | cons first ms ih =>
    unfold lastMembers at h
    split at h
    · exact List.mem_cons_of_mem _ (ih h)
    · rcases List.mem_cons.mp h with rfl | h
      · exact List.mem_cons_self
      · exact List.mem_cons_of_mem _ (ih h)

theorem nodup_lastMembers (ms : List (String × Json)) : ((lastMembers ms).map Prod.fst).Nodup := by
  induction ms with
  | nil => exact List.nodup_nil
  | cons first ms ih =>
    unfold lastMembers
    split
    · exact ih
    · next hlast =>
      refine List.nodup_cons.mpr ⟨fun hmem => hlast ?_, ih⟩
      obtain ⟨m, hm, hname⟩ := List.mem_map.mp hmem
      exact List.any_eq_true.mpr ⟨m, mem_of_mem_lastMembers hm, beq_iff_eq.mpr hname⟩

theorem lastMembers_eq_self {ms : List (String × Json)} (h : (ms.map Prod.fst).Nodup) :
    lastMembers ms = ms := by
  induction ms with
  | nil => rfl
  | cons first ms ih =>
    obtain ⟨hfirst, hrest⟩ := List.nodup_cons.mp h
    have hlast : ¬ms.any (·.1 == first.1) = true := by
      intro hany
      obtain ⟨m, hm, hname⟩ := List.any_eq_true.mp hany
      exact hfirst (List.mem_map.mpr ⟨m, hm, beq_iff_eq.mp hname⟩)
    rw [lastMembers, if_neg hlast, ih hrest]

/-- The readers give what is readable, with this fuel. -/
structure GivesReadable (fuel : Nat) : Prop where
  value {room : Nat} {cs rest : List Char} {v : Json} :
    readValue fuel room cs = some (v, rest) → Readable room v
  elements {room : Nat} {cs rest : List Char} {es : List Json} :
    readElements fuel room cs = some (es, rest) → ∀ e ∈ es, Readable room e
  members {room : Nat} {cs rest : List Char} {ms : List (String × Json)} :
    readMembers fuel room cs = some (ms, rest) → ∀ m ∈ ms, Readable room m.2

namespace GivesReadable

variable {fuel room : Nat} {cs rest : List Char}

theorem value_succ (h : GivesReadable fuel) {v : Json}
    (hread : readValue (fuel + 1) room cs = some (v, rest)) : Readable room v := by
  rw [readValue] at hread
  split at hread
  · obtain ⟨rfl, -⟩ := Prod.mk.inj (Option.some.inj hread)
    exact .null
  · obtain ⟨rfl, -⟩ := Prod.mk.inj (Option.some.inj hread)
    exact .bool true
  · obtain ⟨rfl, -⟩ := Prod.mk.inj (Option.some.inj hread)
    exact .bool false
  · obtain ⟨r, -, heq⟩ := Option.map_eq_some_iff.mp hread
    obtain ⟨rfl, -⟩ := Prod.mk.inj heq
    exact .str r.1
  · split at hread
    · exact nomatch hread
    next hroom =>
    obtain ⟨room, rfl⟩ := Nat.exists_eq_succ_of_ne_zero hroom
    split at hread
    · obtain ⟨rfl, -⟩ := Prod.mk.inj (Option.some.inj hread)
      exact .arr fun _ => nofun
    · obtain ⟨⟨es, after⟩, hes, heq⟩ := Option.map_eq_some_iff.mp hread
      obtain ⟨rfl, -⟩ := Prod.mk.inj heq
      exact .arr (h.elements hes)
  · split at hread
    · exact nomatch hread
    next hroom =>
    obtain ⟨room, rfl⟩ := Nat.exists_eq_succ_of_ne_zero hroom
    split at hread
    · obtain ⟨rfl, -⟩ := Prod.mk.inj (Option.some.inj hread)
      exact .obj (fun _ => nofun) List.nodup_nil
    · obtain ⟨⟨ms, after⟩, hms, heq⟩ := Option.map_eq_some_iff.mp hread
      obtain ⟨rfl, -⟩ := Prod.mk.inj heq
      exact .obj (fun m hm => h.members hms m (mem_of_mem_lastMembers hm)) (nodup_lastMembers ms)
  · rcases isFinite_of_readNumber hread with ⟨n, rfl, hfinite⟩ | ⟨x, rfl, hfinite⟩
    · exact .int hfinite
    · exact .real hfinite

theorem elements_succ (h : GivesReadable fuel) {es : List Json}
    (hread : readElements (fuel + 1) room cs = some (es, rest)) : ∀ e ∈ es, Readable room e := by
  rw [readElements] at hread
  obtain ⟨⟨e, after⟩, he, hrest⟩ := Option.bind_eq_some_iff.mp hread
  have hfirst := h.value he
  dsimp only at hrest
  split at hrest
  · obtain ⟨⟨es', after⟩, hes, heq⟩ := Option.map_eq_some_iff.mp hrest
    obtain ⟨rfl, -⟩ := Prod.mk.inj heq
    exact List.forall_mem_cons.mpr ⟨hfirst, h.elements hes⟩
  · obtain ⟨rfl, -⟩ := Prod.mk.inj (Option.some.inj hrest)
    exact List.forall_mem_singleton.mpr hfirst
  · exact nomatch hrest

theorem members_succ (h : GivesReadable fuel) {ms : List (String × Json)}
    (hread : readMembers (fuel + 1) room cs = some (ms, rest)) : ∀ m ∈ ms, Readable room m.2 := by
  rw [readMembers] at hread
  split at hread
  · obtain ⟨⟨name, named⟩, -, hcolon⟩ := Option.bind_eq_some_iff.mp hread
    dsimp only at hcolon
    split at hcolon
    · obtain ⟨⟨v, after⟩, hv, hrest⟩ := Option.bind_eq_some_iff.mp hcolon
      have hfirst := h.value hv
      dsimp only at hrest
      split at hrest
      · obtain ⟨⟨ms', after⟩, hms, heq⟩ := Option.map_eq_some_iff.mp hrest
        obtain ⟨rfl, -⟩ := Prod.mk.inj heq
        exact List.forall_mem_cons.mpr ⟨hfirst, h.members hms⟩
      · obtain ⟨rfl, -⟩ := Prod.mk.inj (Option.some.inj hrest)
        exact List.forall_mem_singleton.mpr hfirst
      · exact nomatch hrest
    · exact nomatch hcolon
  · exact nomatch hread

end GivesReadable

theorem givesReadable (fuel : Nat) : GivesReadable fuel := by
  induction fuel with
  | zero =>
    constructor
    · intro room cs rest v h
      rw [readValue] at h
      exact nomatch h
    · intro room cs rest es h
      rw [readElements] at h
      exact nomatch h
    · intro room cs rest ms h
      rw [readMembers] at h
      exact nomatch h
  | succ fuel ih => exact ⟨ih.value_succ, ih.elements_succ, ih.members_succ⟩

end JokerRules.Json
