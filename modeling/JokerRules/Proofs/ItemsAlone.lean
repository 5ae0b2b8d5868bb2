import JokerRules.Proofs.AtlasCells
import JokerRules.Proofs.Compilation
import Mathlib.Data.Fin.Tuple.Basic
import Mathlib.Data.List.Nodup
import Mathlib.Data.List.OfFn

/-! A mod and its items. Every item is compiled as if it stood alone, in the cells that the overlays
of the items before it leave to it. The mod adds to this only that no slug may occur twice, and the
overrides that the items ask for. -/

namespace JokerRules

def SlugsDistinct (slugs : List String) : Prop :=
  (slugs.filter (· ≠ "")).Nodup

instance (slugs : List String) : Decidable (SlugsDistinct slugs) :=
  inferInstanceAs (Decidable (List.Nodup _))

/-- The slug is the first one that has occurred before. -/
def FirstRepeat (slugs : List String) (slug : String) : Prop :=
  ∃ before rest, slugs = before ++ slug :: rest ∧ slug ≠ "" ∧ slug ∈ before ∧ SlugsDistinct before

section Slugs

variable {front seen slugs : List String} {slug : String}

theorem SlugsDistinct.left {rest : List String} (h : SlugsDistinct (front ++ rest)) :
    SlugsDistinct front := by
  rw [SlugsDistinct, List.filter_append] at h
  exact h.sublist (List.sublist_append_left ..)

theorem slugsDistinct_snoc :
    SlugsDistinct (front ++ [slug]) ↔ SlugsDistinct front ∧ (slug ≠ "" → slug ∉ front) := by
  by_cases hslug : slug = ""
  · simp [SlugsDistinct, hslug]
  · have hlast : [slug].filter (· ≠ "") = [slug] := by simp [hslug]
    rw [SlugsDistinct, List.filter_append, hlast, List.nodup_append_comm, List.singleton_append,
      List.nodup_cons, List.mem_filter, SlugsDistinct]
    simp [hslug, and_comm]

/-- The scan has passed the front and knows its slugs. -/
structure Scanned (front seen : List String) : Prop where
  distinct : SlugsDistinct front
  mem_iff : ∀ s, s ∈ seen ↔ s ∈ front ∧ s ≠ ""

/-- The scan stops at a slug that it knows, and passes every other one. -/
theorem Scanned.step (h : Scanned front seen) (s : String) :
    (s ≠ "" ∧ s ∈ front ∧ ∀ slugs, Mod.firstRepeat? seen (s :: slugs) = some s) ∨
      ∃ seen', Scanned (front ++ [s]) seen' ∧
        ∀ slugs, Mod.firstRepeat? seen (s :: slugs) = Mod.firstRepeat? seen' slugs := by
  by_cases hempty : s = ""
  · refine .inr ⟨seen, ⟨slugsDistinct_snoc.mpr ⟨h.distinct, fun hs => absurd hempty hs⟩, ?_⟩,
      fun slugs => if_pos hempty⟩
    intro t
    rw [h.mem_iff, List.mem_append, List.mem_singleton]
    grind
  by_cases hold : s ∈ seen
  · refine .inl ⟨hempty, ((h.mem_iff s).mp hold).1, fun slugs => ?_⟩
    rw [Mod.firstRepeat?, if_neg hempty, if_pos (by simpa using hold)]
  · have hnew : s ∉ front := fun hmem => hold ((h.mem_iff s).mpr ⟨hmem, hempty⟩)
    refine .inr ⟨s :: seen, ⟨slugsDistinct_snoc.mpr ⟨h.distinct, fun _ => hnew⟩, fun t => ?_⟩,
      fun slugs => ?_⟩
    · rw [List.mem_cons, h.mem_iff, List.mem_append, List.mem_singleton]
      grind
    · rw [Mod.firstRepeat?, if_neg hempty, if_neg (by simpa using hold)]

theorem Scanned.eq_none_iff (h : Scanned front seen) :
    Mod.firstRepeat? seen slugs = none ↔ SlugsDistinct (front ++ slugs) := by
  induction slugs generalizing front seen with
  | nil => simpa [Mod.firstRepeat?] using h.distinct
  | cons s slugs ih =>
    rw [List.append_cons]
    rcases h.step s with ⟨hs, hmem, hstop⟩ | ⟨seen', h', hpass⟩
    · rw [hstop]
      exact iff_of_false (by simp) fun hall => (slugsDistinct_snoc.mp hall.left).2 hs hmem
    · rw [hpass, ih h']

theorem Scanned.eq_some_iff (h : Scanned front seen) :
    Mod.firstRepeat? seen slugs = some slug ↔
      ∃ before rest, slugs = before ++ slug :: rest ∧ slug ≠ "" ∧ slug ∈ front ++ before ∧
        SlugsDistinct (front ++ before) := by
  induction slugs generalizing front seen with
  | nil => simp [Mod.firstRepeat?]
  | cons s slugs ih =>
    rcases h.step s with ⟨hs, hmem, hstop⟩ | ⟨seen', h', hpass⟩
    · rw [hstop, Option.some.injEq]
      constructor
      · rintro rfl
        exact ⟨[], slugs, rfl, hs, by simpa using hmem, by simpa using h.distinct⟩
      · rintro ⟨_ | ⟨t, before⟩, rest, heq, -, -, hdistinct⟩
        · exact (List.cons.inj heq).1
        · obtain ⟨rfl, -⟩ := List.cons.inj heq
          rw [List.append_cons] at hdistinct
          exact absurd hmem ((slugsDistinct_snoc.mp hdistinct.left).2 hs)
    · rw [hpass, ih h']
      constructor
      · rintro ⟨before, rest, rfl, hrepeat⟩
        exact ⟨s :: before, rest, rfl, by simpa using hrepeat⟩
      · rintro ⟨_ | ⟨t, before⟩, rest, heq, hslug, hrepeat⟩
        · obtain ⟨rfl, -⟩ := List.cons.inj heq
          exact absurd (by simpa using hrepeat.1) ((slugsDistinct_snoc.mp h'.distinct).2 hslug)
        · obtain ⟨rfl, rfl⟩ := List.cons.inj heq
          exact ⟨before, rest, rfl, hslug, by simpa using hrepeat⟩

theorem scanned_nil : Scanned [] [] :=
  ⟨List.nodup_nil, by simp⟩

theorem firstRepeat?_eq_none_iff : Mod.firstRepeat? [] slugs = none ↔ SlugsDistinct slugs :=
  scanned_nil.eq_none_iff

theorem firstRepeat?_eq_some_iff : Mod.firstRepeat? [] slugs = some slug ↔ FirstRepeat slugs slug :=
  scanned_nil.eq_some_iff

end Slugs

namespace Mod

/-- The definition of an item that looks at the ones before it for their overlays only. -/
def aloneFrom (settings : ModSettings) (atlas : Atlas) (items : List Item) (i : Fin items.length) :
    Except ItemFault Definition :=
  let reached := atlas.after ((items.take i).map (·.hasOverlay))
  Definition.compile items[i] (reached.take items[i].hasOverlay).1 settings

/-- The definition of an item of a mod, compiled alone. -/
def alone (items : List Item) (settings : ModSettings) (i : Fin items.length) :
    Except ItemFault Definition :=
  aloneFrom settings (.ofColumns settings.columns) items i

section Definitions

variable {settings : ModSettings} {atlas rest : Atlas} {item : Item} {items : List Item}
  {ds : List Definition}

theorem aloneFrom_zero : aloneFrom settings atlas (item :: items) 0 =
    Definition.compile item (atlas.take item.hasOverlay).1 settings :=
  rfl

theorem aloneFrom_succ (i : Fin items.length) : aloneFrom settings atlas (item :: items) i.succ =
    aloneFrom settings (atlas.take item.hasOverlay).2 items i :=
  rfl

theorem definitions_cons : definitions settings atlas (item :: items) =
    (Definition.compile item (atlas.take item.hasOverlay).1 settings).bind fun d =>
      (definitions settings (atlas.take item.hasOverlay).2 items).map fun later =>
        (d :: later.1, later.2) := by
  simp only [definitions]
  cases Definition.compile item (atlas.take item.hasOverlay).1 settings with
  | error e => rfl
  | ok d => cases definitions settings (atlas.take item.hasOverlay).2 items <;> rfl

theorem definitions_eq_ok_iff :
    definitions settings atlas items = .ok (ds, rest) ↔
      ds.map .ok = List.ofFn (aloneFrom settings atlas items) ∧
        rest = atlas.after (items.map (·.hasOverlay)) := by
  induction items generalizing atlas ds with
  | nil => cases ds <;> simp [definitions, Atlas.after, eq_comm]
  | cons item items ih =>
    have hafter : atlas.after ((item :: items).map (·.hasOverlay)) =
        (atlas.take item.hasOverlay).2.after (items.map (·.hasOverlay)) := rfl
    simp only [definitions_cons, List.length_cons, List.ofFn_succ, aloneFrom_succ, aloneFrom_zero,
      hafter]
    cases Definition.compile item (atlas.take item.hasOverlay).1 settings with
    | error e => cases ds <;> simp [Except.bind]
    | ok d =>
      cases ds with
      | nil => cases definitions settings (atlas.take item.hasOverlay).2 items <;>
          simp [Except.bind, Except.map]
      | cons d' ds =>
        rw [List.map_cons, List.cons.injEq, Except.ok.injEq, and_assoc, ← ih]
        cases definitions settings (atlas.take item.hasOverlay).2 items with
        | error e => simp [Except.bind, Except.map]
        | ok later => simp [Except.bind, Except.map, Prod.ext_iff, and_assoc, eq_comm]

theorem definitions_eq_error_iff {e : ItemFault} :
    definitions settings atlas items = .error e ↔
      ∃ i, aloneFrom settings atlas items i = .error e ∧
        ∀ j < i, ∃ d, aloneFrom settings atlas items j = .ok d := by
  induction items generalizing atlas with
  | nil => simp [definitions]
  | cons item items ih =>
    simp only [definitions_cons, List.length_cons, Fin.exists_fin_succ, Fin.forall_fin_succ,
      aloneFrom_succ, aloneFrom_zero, Fin.succ_lt_succ_iff, Fin.succ_pos, Fin.not_lt_zero]
    cases Definition.compile item (atlas.take item.hasOverlay).1 settings with
    | error e' => simp [Except.bind]
    | ok d =>
      have hlater := @ih (atlas.take item.hasOverlay).2
      cases hds : definitions settings (atlas.take item.hasOverlay).2 items with
      | error e' => simpa [Except.bind, Except.map, hds] using hlater
      | ok later => simpa [Except.bind, Except.map, hds] using hlater

end Definitions

section Compile

variable {settings : ModSettings} {items : List Item} {m : Mod}

theorem compile_eq_ok_iff : compile items settings = .ok m ↔
    SlugsDistinct (items.map (·.slug)) ∧ m.items.map .ok = List.ofFn (alone items settings) ∧
      m.overrides = Override.overrides (m.items.flatMap (·.requests)) ∧
      m.atlasCells =
        ((Atlas.ofColumns settings.columns).after (items.map (·.hasOverlay))).used := by
  unfold compile
  rw [← firstRepeat?_eq_none_iff]
  cases firstRepeat? [] (items.map (·.slug)) with
  | some slug => simp
  | none =>
    have hdefinitions : ∀ ds rest,
        definitions settings (.ofColumns settings.columns) items = .ok (ds, rest) ↔
          ds.map .ok = List.ofFn (alone items settings) ∧
            rest = (Atlas.ofColumns settings.columns).after (items.map (·.hasOverlay)) :=
      fun ds rest => definitions_eq_ok_iff
    dsimp only
    constructor
    · intro h
      split at h
      · cases h
      · next ds' rest hds =>
        obtain ⟨hds', rfl⟩ := (hdefinitions ds' rest).mp hds
        obtain rfl := Except.ok.inj h
        exact ⟨rfl, hds', rfl, rfl⟩
    · rintro ⟨-, hds, hoverrides, hcells⟩
      rw [(hdefinitions m.items _).mpr ⟨hds, rfl⟩]
      dsimp only
      rw [← hoverrides, ← hcells]

theorem exists_compile_iff : (∃ m, compile items settings = .ok m) ↔
    SlugsDistinct (items.map (·.slug)) ∧ ∀ i, ∃ d, alone items settings i = .ok d := by
  constructor
  · rintro ⟨m, hm⟩
    obtain ⟨hslugs, hitems, -⟩ := compile_eq_ok_iff.mp hm
    refine ⟨hslugs, fun i => ?_⟩
    have hmem : alone items settings i ∈ m.items.map .ok := hitems ▸ List.mem_ofFn.mpr ⟨i, rfl⟩
    obtain ⟨d, -, hd⟩ := List.mem_map.mp hmem
    exact ⟨d, hd.symm⟩
  · rintro ⟨hslugs, halone⟩
    choose d hd using halone
    obtain ⟨ds, hds⟩ : ∃ ds : List Definition, ds.map .ok = List.ofFn (alone items settings) :=
      ⟨List.ofFn d, by rw [List.map_ofFn, funext hd]; rfl⟩
    let m : Mod := {
      overrides := Override.overrides (ds.flatMap (·.requests))
      items := ds
      atlasCells := ((Atlas.ofColumns settings.columns).after (items.map (·.hasOverlay))).used }
    exact ⟨m, compile_eq_ok_iff.mpr ⟨hslugs, hds, rfl, rfl⟩⟩

theorem compile_eq_error_iff {e : ItemFault} : compile items settings = .error e ↔
    (∃ slug, FirstRepeat (items.map (·.slug)) slug ∧ e = .duplicateKey slug) ∨
      SlugsDistinct (items.map (·.slug)) ∧
        ∃ i, alone items settings i = .error e ∧ ∀ j < i, ∃ d, alone items settings j = .ok d := by
  unfold compile
  simp only [← firstRepeat?_eq_none_iff, ← firstRepeat?_eq_some_iff]
  cases firstRepeat? [] (items.map (·.slug)) with
  | some slug => simp [eq_comm]
  | none =>
    have hdefinitions : definitions settings (.ofColumns settings.columns) items = .error e ↔
        ∃ i, alone items settings i = .error e ∧ ∀ j < i, ∃ d, alone items settings j = .ok d :=
      definitions_eq_error_iff
    cases hds : definitions settings (.ofColumns settings.columns) items with
    | error e' => simpa [hds] using hdefinitions
    | ok result => simpa [hds] using hdefinitions

theorem key_of_alone {i : Fin items.length} {d : Definition}
    (h : alone items settings i = .ok d) :
    d.key = settings.itemKey items[i].slug ∧ items[i].slug ≠ "" := by
  unfold alone aloneFrom at h
  obtain ⟨-, hslug, -, rfl⟩ := Definition.compile_eq_ok_iff.mp h
  exact ⟨rfl, hslug⟩

theorem itemKey_injective (settings : ModSettings) : Function.Injective settings.itemKey := by
  intro slug slug' h
  have htext := congrArg String.toList h
  simp only [ModSettings.itemKey, String.toList_append] at htext
  exact String.toList_inj.mp (List.append_cancel_left htext)

theorem keys_eq (h : m.items.map .ok = List.ofFn (alone items settings)) :
    m.items.map (·.key) = (items.map (·.slug)).map settings.itemKey ∧ "" ∉ items.map (·.slug) := by
  have hlength : m.items.length = items.length := by simpa using congrArg List.length h
  have heach : ∀ i (hi : i < items.length), alone items settings ⟨i, hi⟩ = .ok m.items[i] := by
    intro i hi
    have hat : (m.items.map Except.ok)[i]? = (List.ofFn (alone items settings))[i]? := by rw [h]
    rw [List.getElem?_map, List.getElem?_eq_getElem (hlength ▸ hi), List.getElem?_ofFn,
      dif_pos hi] at hat
    exact (Option.some.inj hat).symm
  refine ⟨List.ext_getElem (by simpa using hlength) fun i hi hi' => ?_, ?_⟩
  · simpa using (key_of_alone (heach i (by simpa using hi'))).1
  · intro hmem
    obtain ⟨item, hitem, hslug⟩ := List.mem_map.mp hmem
    obtain ⟨i, hi, rfl⟩ := List.getElem_of_mem hitem
    exact (key_of_alone (heach i hi)).2 hslug

theorem nodup_keys (hslugs : SlugsDistinct (items.map (·.slug)))
    (h : m.items.map .ok = List.ofFn (alone items settings)) : (m.items.map (·.key)).Nodup := by
  obtain ⟨hkeys, hnonempty⟩ := keys_eq h
  have hall : (items.map (·.slug)).filter (· ≠ "") = items.map (·.slug) :=
    List.filter_eq_self.mpr fun slug hslug => by simpa using ne_of_mem_of_not_mem hslug hnonempty
  rw [SlugsDistinct, hall] at hslugs
  rw [hkeys]
  exact hslugs.map (itemKey_injective settings)

theorem getElem?_alone (i : Nat) : (List.ofFn (alone items settings))[i]? =
    items[i]?.map fun item => Definition.compile item
      (((Atlas.ofColumns settings.columns).after ((items.map (·.hasOverlay)).take i)).take
        item.hasOverlay).1 settings := by
  by_cases hi : i < items.length
  · simp [hi, alone, aloneFrom, List.map_take]
  · simp [hi]

/-- A mod compiles exactly when its slugs are distinct and every item compiles alone. Then it holds
just what the items are alone, under distinct keys, with the overrides that they ask for. Otherwise
the fault is the first repeated slug, or else that of the first item that fails. An item is not
affected by the others as long as they keep their overlays. -/
theorem compile_iff_items_alone (items : List Item) (settings : ModSettings) :
    ((∃ m, compile items settings = .ok m) ↔
      SlugsDistinct (items.map (·.slug)) ∧ ∀ i, ∃ d, alone items settings i = .ok d) ∧
    (∀ m, compile items settings = .ok m →
      m.items.map .ok = List.ofFn (alone items settings) ∧ (m.items.map (·.key)).Nodup ∧
        m.overrides = Override.overrides (m.items.flatMap (·.requests))) ∧
    (∀ e, compile items settings = .error e ↔
      (∃ slug, FirstRepeat (items.map (·.slug)) slug ∧ e = .duplicateKey slug) ∨
        SlugsDistinct (items.map (·.slug)) ∧
          ∃ i, alone items settings i = .error e ∧ ∀ j < i, ∃ d, alone items settings j = .ok d) ∧
    ∀ (items' : List Item) m m' (i : Nat), items'.map (·.hasOverlay) = items.map (·.hasOverlay) →
      items'[i]? = items[i]? → compile items settings = .ok m → compile items' settings = .ok m' →
        m'.items[i]? = m.items[i]? := by
  refine ⟨exists_compile_iff, ?_, fun e => compile_eq_error_iff, ?_⟩
  · intro m hm
    obtain ⟨hslugs, hitems, hoverrides, -⟩ := compile_eq_ok_iff.mp hm
    exact ⟨hitems, nodup_keys hslugs hitems, hoverrides⟩
  · intro items' m m' i hoverlays hitem hm hm'
    obtain ⟨-, hitems, -⟩ := compile_eq_ok_iff.mp hm
    obtain ⟨-, hitems', -⟩ := compile_eq_ok_iff.mp hm'
    have hok : (m'.items.map (Except.ok (ε := ItemFault)))[i]? = (m.items.map .ok)[i]? := by
      rw [hitems, hitems', getElem?_alone, getElem?_alone, hoverlays, hitem]
    rw [List.getElem?_map, List.getElem?_map] at hok
    exact Option.map_injective (fun _ _ => Except.ok.inj) hok

/-- A card with an overlay that changes which hands are straights. -/
def hopper : Item where
  id := "h"
  name := "Hopper"
  hasOverlay := true
  rules := [{ id := "p", trigger := .passive, effects := [{ id := "e", kind := .shortcut }] }]

/-- A card with an overlay that changes which cards score. -/
def splasher : Item where
  id := "s"
  name := "Splasher"
  hasOverlay := true
  rules := [{ id := "p", trigger := .passive, effects := [{ id := "e", kind := .splashEffect }] }]

def showrunner : Item where
  id := "n"
  name := "Showrunner"
  rules := [{ id := "p", trigger := .passive, effects := [{ id := "e", kind := .showman }] },
    { id := "r", trigger := .handPlayed, effects := [{ id := "f", kind := .addChips }] }]

/-- The card next to the exchanged one is the same in both mods. -/
theorem showrunner_unaffected : ∃ m m',
    compile [hopper, showrunner] {} = .ok m ∧ compile [splasher, showrunner] {} = .ok m' ∧
      m'.items[0]? ≠ m.items[0]? ∧ m'.items[1]? = m.items[1]? := by
  have hok : (compile [hopper, showrunner] {}).isOk := by decide +kernel
  have hok' : (compile [splasher, showrunner] {}).isOk := by decide +kernel
  cases hm : compile [hopper, showrunner] {} with
  | error e => simp [hm, Except.isOk, Except.toBool] at hok
  | ok m =>
  cases hm' : compile [splasher, showrunner] {} with
  | error e => simp [hm', Except.isOk, Except.toBool] at hok'
  | ok m' =>
  obtain ⟨-, hitems, -, hsame⟩ := compile_iff_items_alone [hopper, showrunner] {}
  obtain ⟨-, hitems', -⟩ := compile_iff_items_alone [splasher, showrunner] {}
  refine ⟨m, m', rfl, rfl, fun heq => ?_,
    hsame [splasher, showrunner] m m' 1 rfl rfl hm hm'⟩
  have hkey := congrArg (Option.map Definition.key) heq
  rw [← List.getElem?_map, ← List.getElem?_map, (keys_eq (hitems m hm).1).1,
    (keys_eq (hitems' m' hm').1).1] at hkey
  exact absurd hkey (by decide +kernel)

end Compile

end Mod

end JokerRules
