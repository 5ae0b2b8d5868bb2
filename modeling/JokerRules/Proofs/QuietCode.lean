import JokerRules.Proofs.Brackets.Effects
import JokerRules.Proofs.LineTemplates

/-! Code that chooses and makes cards. It writes no slot and no captured value. -/

namespace JokerRules

open Text Statement

theorem oneLine_quoteWith {delimiter : Char} (h : delimiter ≠ '\n') (s : String) :
    OneLine (quoteWith delimiter s) :=
  Brackets.not_mem_quoteWith (.inl rfl) h s

theorem oneLine_quote (s : String) : OneLine (quote s) :=
  oneLine_quoteWith (by decide) s

theorem oneLine_singleQuoted (s : String) : OneLine (singleQuoted s) :=
  oneLine_quoteWith (by decide) s

theorem toList_read (name : String) : (Slot.read name).toList = slotStart ++ name.toList := by
  unfold Slot.read slotStart
  exact String.toList_append

theorem isNameChar_identifier (raw : String) :
    ∀ c ∈ (identifier raw).toList, isNameChar c = true := by
  intro c hc
  have hrange := Brackets.mem_identifier hc
  rw [isNameChar_iff]
  omega

theorem oneLine_identifier (raw : String) : OneLine (identifier raw) :=
  fun hmem => ne_lineFeed_of_isNameChar (isNameChar_identifier raw _ hmem) rfl

theorem oneLine_intercalate {sep : String} (hsep : OneLine sep) {texts : List String}
    (h : ∀ text ∈ texts, OneLine text) : OneLine (sep.intercalate texts) := by
  induction texts with
  | nil => exact List.not_mem_nil
  | cons text texts ih =>
    obtain ⟨htext, htexts⟩ := List.forall_mem_cons.mp h
    cases texts with
    | nil => simpa using htext
    | cons next texts =>
      rw [String.intercalate_cons_cons]
      exact (htext.append hsep).append (ih htexts)

theorem plainName_stem {stem : String}
    (h : (stem.toList.all isNameChar && !stem.toList.isEmpty && stem != "local" &&
      !"_value".toList.isSuffixOf stem.toList) = true) : PlainName stem := by
  simp only [Bool.and_eq_true, List.all_eq_true, Bool.not_eq_true', bne_iff_ne] at h
  obtain ⟨⟨⟨hname, hne⟩, hlocal⟩, hvalue⟩ := h
  refine ⟨⟨by simpa using hne, hname⟩, ?_, hlocal⟩
  intro hsuffix
  rw [List.isSuffixOf_iff_suffix.mpr hsuffix] at hvalue
  exact nomatch hvalue

theorem gives_plainName {stem : String} (h : PlainName stem) : Gives (fresh stem) PlainName :=
  fun _ => plainName_nth h _

theorem quiet_closure {code : String} (h : Quiet code) : Quiet ("func = " ++ closure code) := by
  have htext : "func = " ++ closure code =
      unlines ["func = function()", indent 1 code, "    return true", "end"] := by
    apply String.toList_inj.mp
    simp [Text.closure, toList_unlines]
  rw [htext]
  exact quiet_rows [.line [.fixed _], .block _ (h.indent 1), .line [.fixed _], .line [.fixed _]] rfl

theorem event_eq (code : String) :
    event code = unlines ["G.E_MANAGER:add_event(Event(\x7b",
      indent 1 ("func = " ++ closure code), "\x7d))"] := by
  unfold event
  generalize indent 1 ("func = " ++ closure code) = body
  apply String.toList_inj.mp
  simp [toList_unlines]

theorem quiet_event {code : String} (h : Quiet code) : Quiet (event code) := by
  rw [event_eq]
  exact quiet_rows [.line [.fixed _], .block _ ((quiet_closure h).indent 1), .line [.fixed _]] rfl

/-- The text does not start with an equals sign. -/
def Leads (text : String) : Prop :=
  ∃ c, c ≠ '=' ∧ text.toList.head? = some c

theorem Leads.append {a : String} (h : Leads a) (b : String) : Leads (a ++ b) := by
  obtain ⟨c, hc, hhead⟩ := h
  exact ⟨c, hc, by rw [String.toList_append, List.head?_append, hhead]; rfl⟩

theorem Statement.PlainName.leads {name : String} (h : PlainName name) : Leads name := by
  obtain ⟨c, cs, hcs⟩ := List.exists_cons_of_ne_nil h.isName.1
  refine ⟨c, ?_, by rw [hcs]; rfl⟩
  rintro rfl
  exact absurd (h.isName.2 '=' (hcs ▸ List.mem_cons_self)) (by decide)

/-- The code that counts cards on their way writes nothing. -/
structure QuietHolding (h : Holding) : Prop where
  room : OneLine h.room
  leads : Leads h.room
  reserve : Quiet h.reserve
  release : Quiet h.release

theorem quiet_jokers : QuietHolding Holding.jokers :=
  ⟨by decide, ⟨'#', by decide, rfl⟩, quiet_fixed (by decide), quiet_fixed (by decide)⟩

theorem quiet_consumables : QuietHolding Holding.consumables :=
  ⟨by decide, ⟨'#', by decide, rfl⟩, quiet_fixed (by decide), quiet_fixed (by decide)⟩

theorem QuietHolding.spawn {h : Holding} (hh : QuietHolding h) {created code : String}
    (hcreated : PlainName created) (hcode : Quiet code) : Quiet (h.spawn created code) :=
  quiet_rows [.line [.fixed _, .name _ hcreated, .fixed _],
    .line [.fixed _, .lead _ hh.room hh.leads, .fixed _],
    .line [.fixed _, .name _ hcreated, .fixed _], .block _ hh.reserve,
    .block _ ((quiet_event hcode).indent 1), .line [.fixed _]] rfl

theorem QuietHolding.copy {h : Holding} (hh : QuietHolding h) {target condition code : String}
    (htarget : PlainName target) (hcondition : OneLine condition) (hcode : Quiet code) :
    Quiet (h.copy target condition code) :=
  quiet_rows [.line [.fixed _, .lead _ htarget.oneLine htarget.leads, .fixed _, .hole _ hcondition,
      .fixed _], .block _ hh.reserve, .block _ ((quiet_event hcode).indent 1), .line [.fixed _],
    .line [.fixed _, .name _ htarget, .fixed _], .line [.fixed _]] rfl

theorem quiet_dissolve {target condition : String} (htarget : PlainName target)
    (hcondition : OneLine condition) (hleads : Leads condition) :
    Quiet (dissolve target condition) := by
  have hcode : Quiet (target ++ ":start_dissolve(\x7b G.C.RED \x7d, nil, 1.6)") :=
    (LinePart.quietLine [.name _ htarget, .fixed _] rfl).quiet
  exact quiet_rows [.line [.fixed _, .lead _ hcondition hleads, .fixed _],
    .line [.fixed _, .name _ htarget, .fixed _], .block _ ((quiet_event hcode).indent 1),
    .line [.fixed _]] rfl

theorem oneLine_seed (e : Effect) (stem : String) : OneLine (e.seed stem) :=
  oneLine_singleQuoted _

theorem oneLine_randomElement {list seed : String} (hlist : OneLine list) (hseed : OneLine seed) :
    OneLine (randomElement list seed) :=
  LinePart.oneLine_template [.fixed _, .hole _ hlist, .fixed _, .hole _ hseed, .fixed _] rfl

theorem quiet_chooseFrom {pool target element area test seed : String} (hpool : PlainName pool)
    (htarget : PlainName target) (helement : OneLine element) (harea : OneLine area)
    (htest : OneLine test) (hleads : Leads test) (hseed : OneLine seed) :
    Quiet (chooseFrom pool target element area test seed) :=
  quiet_rows [.line [.fixed _, .name _ hpool, .fixed _],
    .line [.fixed _, .hole _ helement, .fixed _, .hole _ harea, .fixed _],
    .line [.fixed _, .lead _ htest hleads, .fixed _],
    .line [.fixed _, .name _ hpool, .fixed _, .name _ hpool, .fixed _, .hole _ helement],
    .line [.fixed _], .line [.fixed _],
    .line [.fixed _, .name _ htarget, .fixed _, .name _ hpool, .fixed _,
      .hole _ (oneLine_randomElement hpool.oneLine hseed), .fixed _]] rfl

theorem quiet_chooseNeighbour {target offset : String} (htarget : PlainName target)
    (hoffset : OneLine offset) : Quiet (chooseNeighbour target offset) :=
  quiet_rows [.line [.fixed _, .name _ htarget, .fixed _], .line [.fixed _], .line [.fixed _],
    .line [.fixed _, .name _ htarget, .fixed _, .hole _ hoffset, .fixed _], .line [.fixed _],
    .line [.fixed _]] rfl

theorem oneLine_randomName {names : List String} {seed : String} (hseed : OneLine seed) :
    OneLine (randomName names seed) := by
  have hsep : OneLine ", " := by decide
  have hnames : OneLine (", ".intercalate (names.map singleQuoted)) := by
    refine oneLine_intercalate hsep fun text htext => ?_
    obtain ⟨name, -, rfl⟩ := List.mem_map.mp htext
    exact oneLine_singleQuoted name
  exact oneLine_randomElement
    (LinePart.oneLine_template [.fixed _, .hole _ hnames, .fixed _] rfl) hseed

/-- A local variable and the code that binds it. -/
def QuietChoice (choice : String × String) : Prop :=
  PlainName choice.1 ∧ Quiet choice.2

theorem quiet_chooseJoker (e : Effect) {stem : String} (hstem : PlainName stem)
    (allowEternal : Bool) : Gives (e.chooseJoker stem allowEternal) QuietChoice := by
  refine (gives_plainName hstem).bind fun target htarget => ?_
  dsimp only
  split
  · exact gives_pure ⟨htarget, quiet_chooseNeighbour htarget (by decide)⟩
  split
  · exact gives_pure ⟨htarget, quiet_chooseNeighbour htarget (by decide)⟩
  split
  · exact gives_pure ⟨htarget, (LinePart.quietLine [.fixed _, .name _ htarget, .fixed _,
      .hole _ (oneLine_quote _), .fixed _] rfl).quiet⟩
  · refine (gives_plainName (plainName_stem (by decide))).bind fun pool hpool => ?_
    have heternal : OneLine (if allowEternal = true then ""
        else " and not other_joker.ability.eternal") := by
      split <;> decide
    have hleads : Leads "other_joker ~= card" := ⟨'o', by decide, rfl⟩
    exact gives_pure ⟨htarget, quiet_chooseFrom hpool htarget (by decide) (by decide)
      (LinePart.oneLine_template [.fixed _, .hole _ heternal, .fixed _] rfl)
      ((hleads.append _).append _) (oneLine_seed e stem)⟩

theorem oneLine_familyOf {raw : String} {family : String × String}
    (h : Effect.familyOf? raw = some family) : OneLine family.1 := by
  simp only [Effect.familyOf?] at h
  split at h
  · exact Option.some.inj h ▸ by decide
  split at h
  · exact Option.some.inj h ▸ by decide
  split at h
  · exact Option.some.inj h ▸ by decide
  · cases h

theorem oneLine_familyTest (raw : String) : OneLine (match Effect.familyOf? raw with
    | some (set, _) => s!" and held.ability.set == '{set}'"
    | none => "") := by
  split
  · next set _ hfamily =>
    exact LinePart.oneLine_template [.fixed _, .hole _ (oneLine_familyOf hfamily), .fixed _] rfl
  · decide

theorem quiet_chooseConsumable (e : Effect) {stem : String} (hstem : PlainName stem) :
    Gives (e.chooseConsumable stem) QuietChoice := by
  refine (gives_plainName (plainName_stem (by decide))).bind fun pool hpool => ?_
  refine (gives_plainName hstem).bind fun target htarget => ?_
  have hset := oneLine_familyTest (e.params.textOr "consumable_type" "random")
  have hleads : Leads "not held.getting_sliced" := ⟨'n', by decide, rfl⟩
  exact gives_pure ⟨htarget, quiet_chooseFrom hpool htarget (by decide) (by decide)
    (LinePart.oneLine_template [.fixed _, .hole _ hset] rfl) (hleads.append _) (oneLine_seed e stem)⟩

end JokerRules
