import JokerRules.Atlas
import Mathlib.Algebra.GroupWithZero.Nat
import Mathlib.Data.List.Count
import Mathlib.Data.List.Forall2
import Mathlib.Data.List.Nodup

/-! The cells of an atlas, as they are handed out to one item after another. They fill the rows from
left to right without a gap, and no cell is handed out twice. -/

namespace JokerRules

/-- The number of a place, counted row by row. -/
def AtlasPlace.number (p : AtlasPlace) (columns : Nat) : Nat :=
  p.y * columns + p.x

/-- The places of an item: its face, then its overlay. -/
def AtlasCell.places (c : AtlasCell) : List AtlasPlace :=
  c.pos :: c.overlay.toList

namespace Atlas

/-- The atlas once cells have been taken for items with and without overlays. -/
def after (a : Atlas) (overlays : List Bool) : Atlas :=
  overlays.foldl (fun a overlay => (a.take overlay).2) a

/-- The cells that items with and without overlays get one after another. -/
def cells (a : Atlas) : List Bool → List AtlasCell
  | [] => []
  | overlay :: overlays => (a.take overlay).1 :: cells (a.take overlay).2 overlays

def places (a : Atlas) (overlays : List Bool) : List AtlasPlace :=
  (a.cells overlays).flatMap AtlasCell.places

theorem number_position (a : Atlas) (index : Nat) : (a.position index).number a.columns = index :=
  Nat.div_add_mod' index a.columns

theorem position_x_lt {a : Atlas} (h : 0 < a.columns) (index : Nat) :
    (a.position index).x < a.columns :=
  Nat.mod_lt index h

def room (overlay : Bool) : Nat :=
  if overlay then 2 else 1

@[simp]
theorem used_take (a : Atlas) (overlay : Bool) : (a.take overlay).2.used = a.used + room overlay :=
  rfl

@[simp]
theorem position_take (a : Atlas) (overlay : Bool) : (a.take overlay).2.position = a.position :=
  rfl

theorem places_take (a : Atlas) (overlay : Bool) :
    (a.take overlay).1.places = (List.range' a.used (room overlay)).map a.position := by
  cases overlay <;> rfl

theorem used_after (a : Atlas) (overlays : List Bool) :
    (a.after overlays).used = a.used + (overlays.map room).sum := by
  induction overlays generalizing a with
  | nil => rfl
  | cons overlay overlays ih =>
    have hafter : a.after (overlay :: overlays) = (a.take overlay).2.after overlays := rfl
    rw [hafter, ih, used_take, List.map_cons, List.sum_cons, Nat.add_assoc]

theorem sum_room (overlays : List Bool) :
    (overlays.map room).sum = overlays.length + overlays.count true := by
  induction overlays with
  | nil => rfl
  | cons overlay overlays ih =>
    rw [List.map_cons, List.sum_cons, ih, List.length_cons, List.count_cons]
    cases overlay <;> simp [room] <;> omega

theorem places_eq (a : Atlas) (overlays : List Bool) :
    a.places overlays = (List.range' a.used (overlays.map room).sum).map a.position := by
  induction overlays generalizing a with
  | nil => rfl
  | cons overlay overlays ih =>
    have hplaces : a.places (overlay :: overlays) =
        (a.take overlay).1.places ++ (a.take overlay).2.places overlays := List.flatMap_cons
    rw [hplaces, places_take, ih, position_take, used_take, ← List.map_append, List.map_cons,
      List.sum_cons, ← List.range'_append, Nat.one_mul]

/-- A face and its overlay have neighbouring numbers. -/
def Adjoins (columns : Nat) (overlay : Bool) (c : AtlasCell) : Prop :=
  c.pos.number columns = c.index ∧
    c.overlay.map (·.number columns) = if overlay then some (c.index + 1) else none

theorem adjoins_take (a : Atlas) (overlay : Bool) : Adjoins a.columns overlay (a.take overlay).1 := by
  refine ⟨number_position a a.used, ?_⟩
  cases overlay with
  | false => rfl
  | true => exact congrArg some (number_position a (a.used + 1))

theorem adjoins_cells (a : Atlas) (overlays : List Bool) :
    List.Forall₂ (Adjoins a.columns) overlays (a.cells overlays) := by
  induction overlays generalizing a with
  | nil => exact .nil
  | cons overlay overlays ih => exact .cons (adjoins_take a overlay) (ih (a.take overlay).2)

/-- The places are numbered row by row from zero on without a gap, so that no two are the same, and
an overlay follows its face. No place lies outside the columns or needs a number as large as the
count of the cells, which is one for each item and one more for each overlay. -/
theorem cells_fill_rows (columns : Nat) (overlays : List Bool) :
    ((ofColumns columns).places overlays).map (·.number (max columns 1)) =
      List.range ((ofColumns columns).after overlays).used ∧
    ((ofColumns columns).places overlays).Nodup ∧
    (∀ p ∈ (ofColumns columns).places overlays, p.x < max columns 1 ∧
      p.x < ((ofColumns columns).after overlays).used ∧
        p.y < ((ofColumns columns).after overlays).used) ∧
    List.Forall₂ (Adjoins (max columns 1)) overlays ((ofColumns columns).cells overlays) ∧
    ((ofColumns columns).after overlays).used = overlays.length + overlays.count true := by
  generalize hatlas : ofColumns columns = atlas
  have hcolumns : atlas.columns = max columns 1 := by rw [← hatlas]; rfl
  have hused : (atlas.after overlays).used = (overlays.map room).sum := by
    rw [used_after, ← hatlas]
    exact Nat.zero_add _
  have hplaces : atlas.places overlays =
      (List.range (atlas.after overlays).used).map atlas.position := by
    rw [hused, List.range_eq_range', places_eq, ← hatlas]
    rfl
  have hnumbers : (atlas.places overlays).map (·.number (max columns 1)) =
      List.range (atlas.after overlays).used := by
    rw [hplaces, List.map_map, ← hcolumns]
    exact (List.map_congr_left fun i _ => number_position atlas i).trans (List.map_id _)
  refine ⟨hnumbers, List.Nodup.of_map _ (hnumbers ▸ List.nodup_range), ?_,
    hcolumns ▸ adjoins_cells atlas overlays, hused.trans (sum_room overlays)⟩
  intro p hp
  rw [hplaces] at hp
  obtain ⟨i, hi, rfl⟩ := List.mem_map.mp hp
  have hi := List.mem_range.mp hi
  have hpositive : 0 < atlas.columns := hcolumns ▸ Nat.le_max_right columns 1
  exact ⟨hcolumns ▸ position_x_lt hpositive i, Nat.lt_of_le_of_lt (Nat.mod_le i _) hi,
    Nat.lt_of_le_of_lt (Nat.div_le_self i _) hi⟩

/-- The overlay of the second item starts the next row. -/
theorem straddling_cells_fill_rows :
    (ofColumns 2).places [false, true, false] = [⟨0, 0⟩, ⟨1, 0⟩, ⟨0, 1⟩, ⟨1, 1⟩] ∧
      ((ofColumns 2).places [false, true, false]).map (·.number 2) = List.range 4 ∧
      ((ofColumns 2).places [false, true, false]).Nodup ∧ (⟨0, 1⟩ : AtlasPlace).x < 2 := by
  obtain ⟨hnumbers, hdistinct, hbelow, -⟩ := cells_fill_rows 2 [false, true, false]
  exact ⟨by decide, hnumbers, hdistinct, (hbelow ⟨0, 1⟩ (by decide)).1⟩

end Atlas

end JokerRules
