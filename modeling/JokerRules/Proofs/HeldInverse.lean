import JokerRules.Proofs.Levers

/-! Effects that hold while the item is owned. The statements for entering the deck move the cells
of a quantity by an amount, and those for leaving it move them back by what the amount is then. The
game is restored exactly if the amount is steady under the moves. -/

namespace JokerRules

open Expressions

namespace Quantity

def cells (q : Quantity) : List String :=
  q.held.map Lever.cell

theorem sound_held : ∀ q ∈ holdable, ∀ lever ∈ q.held, lever.Sound := by
  decide +kernel

theorem movable_cells : ∀ q ∈ holdable, Movable q.cells := by
  have hcells : ∀ q ∈ holdable, q.cells.Nodup ∧
      ∀ cell ∈ q.cells, cell ∉ tableNames ∧ cell.toList[1]? ≠ some 'a' := by
    decide +kernel
  have hgauges : ∀ r ∈ gauges, ∀ q ∈ holdable, (∀ name ∈ r.names, name ∈ q.cells → r.text = name) ∧
      (r.text ∈ q.cells → r = .plain r.text) := by
    decide +kernel
  intro q hq
  obtain ⟨hnodup, hcell⟩ := hcells q hq
  exact ⟨hnodup, fun cell hmem => (hcell cell hmem).1,
    fun name hmem => (hcell _ hmem).2 (second_read name),
    fun r hr => (hgauges r hr q hq).1, fun r hr => (hgauges r hr q hq).2⟩

theorem held_ne_nil : ∀ q ∈ holdable, q.held ≠ [] := by
  decide

theorem isNameChar_stem : ∀ q ∈ holdable, ∀ c ∈ q.stem.toList, isNameChar c = true := by
  have hall : ∀ q ∈ holdable, q.stem.toList.all isNameChar = true := by decide +kernel
  exact fun q hq => List.all_eq_true.mp (hall q hq)

/-- The statements that move the quantity. -/
def move (q : Quantity) (way : Direction) (amount : String) : String :=
  Text.unlines (q.held.map (·.apply way.operation amount))

theorem moved_eq (q : Quantity) (p : Params) : ∃ way : Direction, ∀ v,
    q.moved p v = { enter := some (q.move way v), exit := some (q.move way.back v) } := by
  by_cases hlowers : q.operation p = .subtract
  · exact ⟨.down, fun v => by simp [moved, hlowers, move, Direction.operation, Direction.back]⟩
  · exact ⟨.up, fun v => by simp [moved, hlowers, move, Direction.operation, Direction.back]⟩

variable {q : Quantity} {a : Amount} {x : Expr} {way : Direction} {g g' : Game}

theorem leadsTo_move_iff (hq : q ∈ holdable) (hcode : a.Codes x) :
    LeadsTo (q.move way a.expr) g g' ↔ RunsTo (q.held.map (·.command way x)) g g' := by
  have hdenotes : List.Forall₂ DenotesCommand (q.held.map (·.apply way.operation a.expr))
      (q.held.map (·.command way x)) := by
    rw [List.forall₂_map_left_iff, List.forall₂_map_right_iff, List.forall₂_same]
    exact fun lever hlever => Lever.denotes_apply (sound_held q hq lever hlever) hcode.denotes.2 way
  have hcommands : commands? (q.move way a.expr) = some (q.held.map (·.command way x)) :=
    commands?_unlines hdenotes (by simpa using held_ne_nil q hq)
  simp [LeadsTo, hcommands]

theorem exists_leadsTo_move (way : Direction) (hq : q ∈ holdable) (hcode : a.Codes x)
    (hg : Regular g) :
    ∃ g', LeadsTo (q.move way a.expr) g g' := by
  have hcells : ∀ lever ∈ q.held, lever.cell ∉ tableNames :=
    fun lever hlever => (movable_cells q hq).number _ (List.mem_map_of_mem hlever)
  simp only [leadsTo_move_iff hq hcode]
  exact exists_runsTo (sound_held q hq) hcells (fun chance g hg => hcode.exists_eval hg chance) hg

theorem restores_of_steady (hq : q ∈ holdable) (hcode : a.Codes x) (hsteady : a.Steady q.cells) :
    Restores (q.move way a.expr) (q.move way.back a.expr) := by
  intro g g' henter
  have hmovable := movable_cells q hq
  have hsound := sound_held q hq
  have hcells : ∀ lever ∈ q.held, lever.cell ∈ q.cells := fun lever => List.mem_map_of_mem
  rw [leadsTo_move_iff hq hcode] at henter
  obtain ⟨p, hp⟩ : ∃ p, ∀ chance h, Alike q.cells g h → x.eval chance h = some [.number p] := by
    obtain ⟨lever, levers, hheld⟩ := List.exists_cons_of_ne_nil (held_ne_nil q hq)
    have hfirst := hsound lever (by simp [hheld])
    rw [hheld] at henter
    obtain ⟨chance, v, p, -, -, hp, -⟩ := (runsTo_command_cons_iff hfirst).mp henter
    exact ⟨p, fun chance' h halike =>
      (hcode.eval_eq hmovable hsteady halike chance chance').symm.trans hp⟩
  obtain ⟨rfl, hnumbers⟩ :=
    eq_shifted_of_runsTo hsound hcells hmovable.nodup hp (alike_refl _ g) henter
  have halike : Alike q.cells g (shifted q.cells (way.change p) g) := alike_shifted _
  have hback : shifted q.cells (way.back.change p) (shifted q.cells (way.change p) g) = g := by
    rw [way.change_back, shifted_neg]
  simp only [leadsTo_move_iff hq hcode]
  constructor
  · refine ⟨_, runsTo_shifted hsound hcells hmovable.nodup lowest_fair (hp lowest) halike ?_⟩
    intro lever hlever
    obtain ⟨v, hv⟩ := hnumbers lever hlever
    exact ⟨v + way.change p, by simp only [shifted, hv]; exact if_pos (hcells lever hlever)⟩
  · intro g'' hexit
    exact (eq_shifted_of_runsTo hsound hcells hmovable.nodup hp halike hexit).1.trans hback

/-- A game in which the amount is read from a cell that it moves shows the difference. -/
theorem not_restores_of_reads (hq : q ∈ holdable) (hcode : a.Codes x) {cell slot : String}
    {multiplier offset : Binary64} (hcell : cell ∈ q.cells) (hm : multiplier.isZero = false)
    (hx : x = affineExpr (.path cell) multiplier offset (Slot.read slot)) :
    ¬ Restores (q.move way a.expr) (q.move way.back a.expr) := by
  intro hrestores
  have hmovable := movable_cells q hq
  have hslot := hmovable.slot slot
  have heval : ∀ chance h v, h (Slot.read slot) = .number 0 → h cell = .number v →
      x.eval chance h = some [.number (v * factor multiplier)] := by
    intro chance h v hzero hv
    have hread : (Expr.path cell).eval chance h = some [.number v] := by rw [Expr.eval, hv]
    rw [hx, eval_affineExpr hread hzero]
    simp
  have hzero : oneAt cell (Slot.read slot) = .number 0 :=
    oneAt_of_ne (fun heq => hslot (heq ▸ hcell)) (read_notMem_tableNames slot)
  obtain ⟨g', henter⟩ :=
    exists_leadsTo_move way hq hcode (regular_oneAt (hmovable.number cell hcell))
  obtain ⟨⟨g'', hexit⟩, hback⟩ := hrestores _ g' henter
  obtain rfl := hback g'' hexit
  rw [leadsTo_move_iff hq hcode] at henter hexit
  have hmem : cell ∈ q.held.map Lever.cell := hcell
  have hthere := cell_of_runsTo (sound_held q hq) hslot hmovable.nodup heval hzero
    (oneAt_self cell) henter
  have hagain := cell_of_runsTo (sound_held q hq) hslot hmovable.nodup heval hthere.1 hthere.2 hexit
  have hsquare : factor multiplier * factor multiplier = 0 := by
    have hvalue := Datum.number.inj ((oneAt_self cell).symm.trans hagain.2)
    rw [if_pos hmem, if_pos hmem, way.change_back] at hvalue
    cases way <;> simp only [Direction.change] at hvalue <;> linarith
  exact factor_ne_zero hm (mul_self_eq_zero.mp hsquare)

/-- The draw can be zero on entering and one on leaving. -/
theorem not_restores_of_draws (hq : q ∈ holdable) (hcode : a.Codes x) {seed hint : String}
    (hx : x = drawnExpr seed (Slot.read (hint ++ "_min")) (Slot.read (hint ++ "_max"))) :
    ¬ Restores (q.move way a.expr) (q.move way.back a.expr) := by
  intro hrestores
  have hmovable := movable_cells q hq
  have hsound := sound_held q hq
  have hcells : ∀ lever ∈ q.held, lever.cell ∈ q.cells := fun lever => List.mem_map_of_mem
  let g := oneAt (Slot.read (hint ++ "_max"))
  have hlow : g (Slot.read (hint ++ "_min")) = .number 0 := by
    refine oneAt_of_ne (fun heq => ?_) (read_notMem_tableNames _)
    have htext := congrArg String.toList (read_injective heq)
    rw [String.toList_append, String.toList_append] at htext
    exact absurd (List.append_cancel_left htext) (by decide)
  have heval : ∀ chance h, Alike q.cells g h →
      x.eval chance h = some [.number (chance seed 0 1)] := by
    intro chance h halike
    rw [hx]
    exact eval_drawnExpr ((halike.slot hmovable _).symm.trans hlow)
      ((halike.slot hmovable _).symm.trans (oneAt_self _))
  have hzero : ∀ lever ∈ q.held, g lever.cell = .number 0 := by
    intro lever hlever
    have hmem := hcells lever hlever
    exact oneAt_of_ne (fun heq => hmovable.slot _ (heq ▸ hmem)) (hmovable.number _ hmem)
  have hrun : ∀ (way : Direction) {chance : Chance}, chance.Fair →
      LeadsTo (q.move way a.expr) g (shifted q.cells (way.change (chance seed 0 1)) g) := by
    intro way chance hfair
    exact (leadsTo_move_iff hq hcode).mpr (runsTo_shifted hsound hcells hmovable.nodup hfair
      (heval chance) (alike_refl _ g) fun lever hlever => ⟨0, hzero lever hlever⟩)
  have henter : LeadsTo (q.move way a.expr) g g := by
    have hstay : way.change (lowest seed 0 1) = 0 := by cases way <;> simp [Direction.change, lowest]
    simpa only [hstay, shifted_zero] using hrun way lowest_fair
  have hsame := (hrestores g g henter).2 _ (hrun way.back highest_fair)
  obtain ⟨lever, levers, hheld⟩ := List.exists_cons_of_ne_nil (held_ne_nil q hq)
  have hlever : lever ∈ q.held := by simp [hheld]
  have hmoved := congrFun hsame lever.cell
  simp only [shifted, hzero lever hlever, if_pos (hcells lever hlever)] at hmoved
  cases way <;> simp [Direction.change, Direction.back, highest] at hmoved

theorem restores_move_iff (hq : q ∈ holdable) (hcode : a.Codes x) :
    Restores (q.move way a.expr) (q.move way.back a.expr) ↔ a.Steady q.cells := by
  refine ⟨fun hrestores => ?_, restores_of_steady hq hcode⟩
  by_contra hmoves
  rcases hcode.reads_or_draws (movable_cells q hq) hmoves with
    ⟨cell, hcell, multiplier, offset, slot, hm, hx⟩ | ⟨seed, hint, hx⟩
  · exact not_restores_of_reads hq hcode hcell hm hx hrestores
  · exact not_restores_of_draws hq hcode hx hrestores

end Quantity

namespace Effect

variable {e : Effect} {d : Draft}

/-- The amount that the effect moves a quantity by. -/
def heldAmount (e : Effect) (d : Draft) (q : Quantity) : Amount :=
  (d.resolve e q.stem (.int q.fallback) .builtin {}).1.amount

theorem exists_codes_heldAmount (e : Effect) (d : Draft) {q : Quantity} (hq : q ∈ Quantity.holdable) :
    ∃ x, (e.heldAmount d q).Codes x :=
  exists_codes _ e.id (Statement.isNameChar_nth (Quantity.isNameChar_stem q hq) _)

theorem exists_move_of_compileHeld {held : PassiveEffect} {enter exit : String}
    (hheld : (e.compileHeld .builtin d).1 = some held) (henter : held.enter = some enter)
    (hexit : held.exit = some exit) (hkind : e.kind ≠ .discountItems) :
    ∃ q way, Quantity.ofKind? e.kind = some q ∧
      enter = q.move way (e.heldAmount d q).expr ∧ exit = q.move way.back (e.heldAmount d q).expr := by
  obtain ⟨plan, hplan, rfl⟩ := exists_heldPlan hheld
  rcases heldPlan_cases hplan with ⟨q, hq, rfl⟩ | ⟨hdiscount, -⟩ | ⟨-, -, r, rfl, -⟩
  · obtain ⟨way, hmoved⟩ := q.moved_eq e.params
    change (q.moved e.params (e.heldAmount d q).expr).enter = _ at henter
    change (q.moved e.params (e.heldAmount d q).expr).exit = _ at hexit
    rw [hmoved] at henter hexit
    exact ⟨q, way, hq, (Option.some.inj henter).symm, (Option.some.inj hexit).symm⟩
  · exact absurd hdiscount hkind
  · cases henter

/-- Over the game's own state, the statements for entering the deck can be executed in every regular
game, and those for leaving it undo them in every game exactly if the amount makes no draw and does
not read a cell that the effect moves, unless it counts it zero times. -/
theorem exit_restores_iff_steady {held : PassiveEffect} {enter exit : String}
    (hheld : (e.compileHeld .builtin d).1 = some held) (henter : held.enter = some enter)
    (hexit : held.exit = some exit) (hkind : e.kind ≠ .discountItems) :
    ∃ q, Quantity.ofKind? e.kind = some q ∧ (∀ g, Regular g → ∃ g', LeadsTo enter g g') ∧
      (Restores enter exit ↔ (e.heldAmount d q).Steady q.cells) := by
  obtain ⟨q, way, hquantity, rfl, rfl⟩ := exists_move_of_compileHeld hheld henter hexit hkind
  have hq := Quantity.mem_holdable hquantity
  obtain ⟨x, hcode⟩ := e.exists_codes_heldAmount d hq
  exact ⟨q, hquantity, fun g => Quantity.exists_leadsTo_move way hq hcode,
    Quantity.restores_move_iff hq hcode⟩

/-- Fewer hands, by twice the ante and five. -/
def handTaker : Effect where
  id := "e"
  kind := .editHands
  params := .ofList [("operation", .str "subtract"), ("value", .str "GAMEVAR:ante|2|5")]

/-- The hands come back when the card leaves. -/
theorem handTaker_restores :
    let enter := "G.GAME.round_resets.hands = G.GAME.round_resets.hands - " ++
      "(card.ability.extra.ante + (G.GAME.round_resets.ante) * 2)\n" ++
      "ease_hands_played(-(card.ability.extra.ante + (G.GAME.round_resets.ante) * 2))"
    let exit := "G.GAME.round_resets.hands = G.GAME.round_resets.hands + " ++
      "(card.ability.extra.ante + (G.GAME.round_resets.ante) * 2)\n" ++
      "ease_hands_played((card.ability.extra.ante + (G.GAME.round_resets.ante) * 2))"
    (handTaker.compileHeld .builtin { owner := "j" }).1 =
        some { enter := some enter, exit := some exit } ∧ Restores enter exit := by
  intro enter exit
  have hheld : (handTaker.compileHeld .builtin { owner := "j" }).1 =
      some { enter := some enter, exit := some exit } := by
    decide +kernel
  obtain ⟨q, hq, -, hrestores⟩ := exit_restores_iff_steady hheld rfl rfl (by decide)
  obtain rfl : Quantity.hands = q := Option.some.inj hq
  exact ⟨hheld, hrestores.mpr (by decide +kernel)⟩

/-- A bigger hand, by the size that the hand has. -/
def handDoubler : Effect where
  id := "e"
  kind := .editHandSize
  params := .ofList [("value", .str "GAMEVAR:hand_size")]

/-- More slots for jokers, by a draw. -/
def slotGambler : Effect where
  id := "e"
  kind := .editJokerSlots
  params := .ofList [("value", .str "RANGE:1|3")]

/-- Twice the hand is taken away from twice the hand, and a second draw from what the first one
gave. -/
theorem exit_leaves_game_changed :
    ((handDoubler.compileHeld .builtin { owner := "j" }).1 = some {
        enter := some "G.hand:change_size(G.hand.config.card_limit)"
        exit := some "G.hand:change_size(-G.hand.config.card_limit)" } ∧
      ¬ Restores "G.hand:change_size(G.hand.config.card_limit)"
        "G.hand:change_size(-G.hand.config.card_limit)") ∧
    ∃ enter exit, (slotGambler.compileHeld .builtin { owner := "j" }).1 =
        some { enter := some enter, exit := some exit } ∧ ¬ Restores enter exit := by
  have hchanged : ∀ {e : Effect} {q : Quantity} {enter exit : String},
      (e.compileHeld .builtin { owner := "j" }).1 = some { enter := some enter, exit := some exit } →
      Quantity.ofKind? e.kind = some q → e.kind ≠ .discountItems →
      ¬ (e.heldAmount { owner := "j" } q).Steady q.cells → ¬ Restores enter exit := by
    intro e q enter exit hheld hq hkind hmoves hrestores
    obtain ⟨q', way, hq', rfl, rfl⟩ := exists_move_of_compileHeld hheld rfl rfl hkind
    obtain rfl : q = q' := Option.some.inj (hq.symm.trans hq')
    obtain ⟨x, hcode⟩ := e.exists_codes_heldAmount { owner := "j" } (Quantity.mem_holdable hq)
    exact hmoves ((Quantity.restores_move_iff (Quantity.mem_holdable hq) hcode).mp hrestores)
  have hdoubled : (handDoubler.compileHeld .builtin { owner := "j" }).1 = some {
      enter := some "G.hand:change_size(G.hand.config.card_limit)"
      exit := some "G.hand:change_size(-G.hand.config.card_limit)" } := by
    decide +kernel
  have hdrawn : (slotGambler.compileHeld .builtin { owner := "j" }).1 = some {
      enter := some ("G.jokers.config.card_limit = G.jokers.config.card_limit + (pseudorandom(" ++
        "'joker_slots_e', card.ability.extra.joker_slots_min, " ++
        "card.ability.extra.joker_slots_max))")
      exit := some ("G.jokers.config.card_limit = G.jokers.config.card_limit - (pseudorandom(" ++
        "'joker_slots_e', card.ability.extra.joker_slots_min, " ++
        "card.ability.extra.joker_slots_max))") } := by
    decide +kernel
  refine ⟨⟨hdoubled, hchanged hdoubled rfl (by decide) (by decide +kernel)⟩, _, _, hdrawn,
    hchanged hdrawn rfl (by decide) (by decide +kernel)⟩

end Effect

end JokerRules
