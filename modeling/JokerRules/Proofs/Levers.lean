import JokerRules.Proofs.AmountValues
import JokerRules.Proofs.AskedSlots
import JokerRules.Proofs.Generators

/-! Levers that move the cells of a quantity. A move changes each cell by what the amount is when
its statement runs, and all cells by the same if the amount is steady. -/

namespace JokerRules

open Expressions

def lowest : Chance := fun _ low _ => low

theorem lowest_fair : lowest.Fair :=
  fun _ _ _ h => ⟨le_rfl, h⟩

def highest : Chance := fun _ _ high => high

theorem highest_fair : highest.Fair :=
  fun _ _ _ h => ⟨h, le_rfl⟩

inductive Direction
  | up | down

namespace Direction

def back : Direction → Direction
  | up => down
  | down => up

def operation : Direction → Operation
  | up => .add
  | down => .subtract

def operator : Direction → Operator
  | up => .add
  | down => .subtract

def argument (x : Expr) : Direction → Expr
  | up => x
  | down => .signed .minus x

/-- The change that moving by a number makes. -/
def change (q : ℚ) : Direction → ℚ
  | up => q
  | down => -q

theorem change_back (way : Direction) (q : ℚ) : way.back.change q = -way.change q := by
  cases way <;> simp [back, change]

theorem eval_operator_iff {way : Direction} {a b : Option (List Datum)} {d : Datum} :
    way.operator.apply? a b = some [d] ↔
      ∃ v q, a = some [.number v] ∧ b = some [.number q] ∧ d = .number (v + way.change q) := by
  constructor
  · intro h
    cases way <;> simp only [operator, Operator.apply?] at h <;> split at h <;>
      simp_all [change, sub_eq_add_neg]
  · rintro ⟨v, q, rfl, rfl, rfl⟩
    cases way <;> simp [operator, change, Operator.apply?, sub_eq_add_neg]

theorem eval_argument_iff {way : Direction} {x : Expr} {chance : Chance} {g : Game} {p : ℚ} :
    (way.argument x).eval chance g = some [.number p] ↔
      ∃ q, x.eval chance g = some [.number q] ∧ p = way.change q := by
  cases way with
  | up => simp [argument, change]
  | down =>
    simp only [argument, Expr.eval, change, Option.bind_eq_some_iff]
    constructor
    · rintro ⟨ds, hds, hsign⟩
      unfold Sign.apply? at hsign
      split at hsign
      · next hnot => cases hnot
      · next q _ => exact ⟨q, hds, by simpa using hsign.symm⟩
      · next hlength => cases hlength
      · cases hsign
    · rintro ⟨q, hq, rfl⟩
      exact ⟨_, hq, rfl⟩

end Direction

namespace Lever

/-- Where the quantity is kept. -/
def cell : Lever → String
  | stored target => target
  | eased _ current => current

def command (way : Direction) (x : Expr) : Lever → Command
  | stored target => .assign target (.binary way.operator (.path target) x)
  | eased function _ => .call function (way.argument x)

/-- The lever moves the quantity that it says it moves. -/
def Sound : Lever → Prop
  | stored target => amounts.IsPath target
  | eased function current => amounts.IsPath function ∧ counter? function = some current

instance : DecidablePred Sound
  | stored target => inferInstanceAs (Decidable (amounts.IsPath target))
  | eased function current =>
    inferInstanceAs (Decidable (amounts.IsPath function ∧ counter? function = some current))

variable {lever : Lever} {x : Expr}

theorem denotes_apply (hsound : lever.Sound) {amount : String}
    (hx : amounts.Denotes operandLevel (parenthesised amount) x) (way : Direction) :
    DenotesCommand (lever.apply way.operation amount) (lever.command way x) := by
  cases lever with
  | stored target =>
    have hpath : ∀ n, amounts.Denotes n target (.path target) := fun n => .path hsound
    cases way with
    | up => exact Lexicon.Denotes.assign hsound (.binary .add le_rfl (hpath _) (hx.mono (by decide)))
    | down =>
      exact Lexicon.Denotes.assign hsound
        (.binary .subtract le_rfl (hpath _) (hx.mono (by decide)))
  | eased function current =>
    cases way with
    | up => exact Lexicon.Denotes.command (n := 0) (.call hsound.1 (hx.mono (Nat.zero_le _)))
    | down => exact Lexicon.Denotes.command (n := 0) (.call hsound.1 (hx.minus (Nat.zero_le _)))

/-- A lever adds to its cell or takes away from it, and does nothing else. -/
theorem run_command_iff (hsound : lever.Sound) {way : Direction} {chance : Chance} {g g' : Game} :
    (lever.command way x).run chance g = some g' ↔
      ∃ v q, g lever.cell = .number v ∧ x.eval chance g = some [.number q] ∧
        g' = Function.update g lever.cell (.number (v + way.change q)) := by
  cases lever with
  | stored target =>
    rw [command, Command.run_assign_iff]
    simp only [Expr.eval, Direction.eval_operator_iff]
    constructor
    · rintro ⟨d, ⟨v, q, hv, hq, rfl⟩, rfl⟩
      exact ⟨v, q, List.head_eq_of_cons_eq (Option.some.inj hv), hq, rfl⟩
    · rintro ⟨v, q, hv, hq, rfl⟩
      exact ⟨_, ⟨v, q, by rw [← hv]; rfl, hq, rfl⟩, rfl⟩
  | eased function current =>
    rw [command, Command.run_call_iff hsound.2]
    simp only [Direction.eval_argument_iff]
    constructor
    · rintro ⟨v, _, hv, ⟨q, hq, rfl⟩, rfl⟩
      exact ⟨v, q, hv, hq, rfl⟩
    · rintro ⟨v, q, hv, hq, rfl⟩
      exact ⟨v, _, hv, ⟨q, hq, rfl⟩, rfl⟩

end Lever

/-- The game with a number added to each of the cells. -/
def shifted (cells : List String) (q : ℚ) (g : Game) : Game := fun name =>
  match g name with
  | .number v => if name ∈ cells then .number (v + q) else .number v
  | d => d

section Shifted

variable {cells : List String} {g : Game}

theorem shifted_nil {q : ℚ} : shifted [] q g = g := by
  funext name
  unfold shifted
  split
  · next v hv => simp [hv]
  · rfl

theorem shifted_zero : shifted cells 0 g = g := by
  funext name
  unfold shifted
  split
  · next v hv => simp [hv]
  · rfl

theorem shifted_neg (q : ℚ) : shifted cells (-q) (shifted cells q g) = g := by
  funext name
  cases hg : g name with
  | number v => by_cases hmem : name ∈ cells <;> simp [shifted, hg, hmem]
  | absent | truth | table | text => simp [shifted, hg]

theorem shifted_cons {cell : String} {v : ℚ} (hv : g cell = .number v) (hnew : cell ∉ cells) (q : ℚ) :
    shifted (cell :: cells) q g = shifted cells q (Function.update g cell (.number (v + q))) := by
  funext name
  by_cases heq : name = cell
  · subst heq
    simp [shifted, hv, hnew]
  · simp [shifted, heq]

theorem alike_shifted (q : ℚ) : Alike cells g (shifted cells q g) := by
  intro name
  cases hg : g name with
  | number v =>
    by_cases hmem : name ∈ cells
    · exact .inr ⟨hmem, ⟨v, rfl⟩, v + q, by simp [shifted, hg, hmem]⟩
    · exact .inl (by simp [shifted, hg, hmem])
  | absent | truth | table | text => exact .inl (by simp [shifted, hg])

end Shifted

theorem alike_refl (cells : List String) (g : Game) : Alike cells g g := fun _ => .inl rfl

section Runs

variable {levers : List Lever} {way : Direction} {x : Expr} {cells : List String} {start g g' : Game}

theorem runsTo_command_cons_iff {lever : Lever} (hsound : lever.Sound) :
    RunsTo ((lever :: levers).map (·.command way x)) g g' ↔
      ∃ chance v q, chance.Fair ∧ g lever.cell = .number v ∧
        x.eval chance g = some [.number q] ∧
        RunsTo (levers.map (·.command way x))
          (Function.update g lever.cell (.number (v + way.change q))) g' := by
  rw [List.map_cons, runsTo_cons_iff]
  constructor
  · rintro ⟨chance, between, hfair, hrun, hrest⟩
    obtain ⟨v, q, hv, hq, rfl⟩ := (Lever.run_command_iff hsound).mp hrun
    exact ⟨chance, v, q, hfair, hv, hq, hrest⟩
  · rintro ⟨chance, v, q, hfair, hv, hq, hrest⟩
    exact ⟨chance, _, hfair, (Lever.run_command_iff hsound).mpr ⟨v, q, hv, hq, rfl⟩, hrest⟩

theorem exists_runsTo (hsound : ∀ lever ∈ levers, lever.Sound)
    (hcells : ∀ lever ∈ levers, lever.cell ∉ tableNames)
    (hx : ∀ chance g, Regular g → ∃ q, x.eval chance g = some [.number q]) (hg : Regular g) :
    ∃ g', RunsTo (levers.map (·.command way x)) g g' := by
  induction levers generalizing g with
  | nil => exact ⟨g, .done g⟩
  | cons lever levers ih =>
    have hcell := hcells lever (List.mem_cons_self ..)
    obtain ⟨v, hv⟩ := hg.number _ hcell
    obtain ⟨q, hq⟩ := hx lowest g hg
    obtain ⟨g', hrest⟩ := ih (fun lever h => hsound lever (List.mem_cons_of_mem _ h))
      (fun lever h => hcells lever (List.mem_cons_of_mem _ h)) (hg.update hcell (v + way.change q))
    exact ⟨g', (runsTo_command_cons_iff (hsound lever (List.mem_cons_self ..))).mpr
      ⟨lowest, v, q, lowest_fair, hv, hq, hrest⟩⟩

/-- If the amount is the same all along, so is the move of each cell. -/
theorem runsTo_shifted (hsound : ∀ lever ∈ levers, lever.Sound)
    (hcells : ∀ lever ∈ levers, lever.cell ∈ cells) (hnodup : (levers.map Lever.cell).Nodup)
    {chance : Chance} {q : ℚ} (hfair : chance.Fair)
    (hx : ∀ h, Alike cells start h → x.eval chance h = some [.number q])
    (halike : Alike cells start g) (hg : ∀ lever ∈ levers, ∃ v, g lever.cell = .number v) :
    RunsTo (levers.map (·.command way x)) g (shifted (levers.map Lever.cell) (way.change q) g) := by
  induction levers generalizing g with
  | nil => exact runsTo_nil_iff.mpr shifted_nil
  | cons lever levers ih =>
    simp only [List.forall_mem_cons] at hsound hcells hg
    rw [List.map_cons, List.nodup_cons] at hnodup
    obtain ⟨⟨v, hv⟩, hothers⟩ := hg
    have hrest : ∀ other ∈ levers, ∃ w,
        Function.update g lever.cell (.number (v + way.change q)) other.cell = .number w := by
      intro other hother
      have hne : other.cell ≠ lever.cell :=
        fun heq => hnodup.1 (heq ▸ List.mem_map_of_mem hother)
      rw [Function.update_of_ne hne]
      exact hothers other hother
    have hfirst : shifted ((lever :: levers).map Lever.cell) (way.change q) g = _ :=
      shifted_cons hv hnodup.1 _
    rw [hfirst]
    exact (runsTo_command_cons_iff hsound.1).mpr ⟨chance, v, q, hfair, hv, hx g halike,
      ih hsound.2 hcells.2 hnodup.2 (halike.update hcells.1 hv _) hrest⟩

theorem eq_shifted_of_runsTo (hsound : ∀ lever ∈ levers, lever.Sound)
    (hcells : ∀ lever ∈ levers, lever.cell ∈ cells) (hnodup : (levers.map Lever.cell).Nodup)
    {q : ℚ} (hx : ∀ chance h, Alike cells start h → x.eval chance h = some [.number q])
    (halike : Alike cells start g) (hruns : RunsTo (levers.map (·.command way x)) g g') :
    g' = shifted (levers.map Lever.cell) (way.change q) g ∧
      ∀ lever ∈ levers, ∃ v, g lever.cell = .number v := by
  induction levers generalizing g with
  | nil => exact ⟨(runsTo_nil_iff.mp hruns).trans shifted_nil.symm, by simp⟩
  | cons lever levers ih =>
    simp only [List.forall_mem_cons] at hsound hcells ⊢
    rw [List.map_cons, List.nodup_cons] at hnodup
    obtain ⟨chance, v, p, -, hv, hp, hrest⟩ := (runsTo_command_cons_iff hsound.1).mp hruns
    obtain rfl : p = q := by simpa using hp.symm.trans (hx chance g halike)
    obtain ⟨rfl, hothers⟩ := ih hsound.2 hcells.2 hnodup.2 (halike.update hcells.1 hv _) hrest
    refine ⟨(shifted_cons hv hnodup.1 _).symm, ⟨v, hv⟩, fun other hother => ?_⟩
    have hne : other.cell ≠ lever.cell :=
      fun heq => hnodup.1 (heq ▸ List.mem_map_of_mem hother)
    simpa only [Function.update_of_ne hne] using hothers other hother

/-- What becomes of a cell that is moved by a multiple of itself. -/
theorem cell_of_runsTo {cell : String} {factor v : ℚ} {slot : String}
    (hsound : ∀ lever ∈ levers, lever.Sound) (hslot : slot ∉ levers.map Lever.cell)
    (hnodup : (levers.map Lever.cell).Nodup)
    (hx : ∀ chance h v, h slot = .number 0 → h cell = .number v →
      x.eval chance h = some [.number (v * factor)])
    (hzero : g slot = .number 0) (hv : g cell = .number v)
    (hruns : RunsTo (levers.map (·.command way x)) g g') :
    g' slot = .number 0 ∧ g' cell = .number
      (if cell ∈ levers.map Lever.cell then v + way.change (v * factor) else v) := by
  induction levers generalizing g v with
  | nil =>
    rw [runsTo_nil_iff.mp hruns]
    exact ⟨hzero, by simpa using hv⟩
  | cons lever levers ih =>
    simp only [List.forall_mem_cons] at hsound
    rw [List.map_cons, List.nodup_cons] at hnodup
    rw [List.map_cons, List.mem_cons, not_or] at hslot
    obtain ⟨chance, w, q, -, hw, hq, hrest⟩ := (runsTo_command_cons_iff hsound.1).mp hruns
    obtain rfl : q = v * factor := by simpa using hq.symm.trans (hx chance g v hzero hv)
    have hzero' := (Function.update_of_ne hslot.1 (.number (w + way.change (v * factor))) g).trans hzero
    by_cases heq : cell = lever.cell
    · -- No later lever moves the cell again.
      subst heq
      obtain rfl : w = v := by simpa using hw.symm.trans hv
      have hlater := ih hsound.2 hslot.2 hnodup.2 hzero' (Function.update_self ..) hrest
      simpa [hnodup.1] using hlater
    · have hlater := ih hsound.2 hslot.2 hnodup.2 hzero'
        ((Function.update_of_ne heq _ g).trans hv) hrest
      simpa [heq] using hlater

end Runs

/-- Nothing is there, and all numbers are zero but one. -/
def oneAt (name : String) : Game :=
  Function.update (fun other => if other ∈ tableNames then .absent else .number 0) name (.number 1)

theorem oneAt_self (name : String) : oneAt name name = .number 1 :=
  Function.update_self ..

theorem oneAt_of_ne {name other : String} (hne : other ≠ name) (hother : other ∉ tableNames) :
    oneAt name other = .number 0 :=
  (Function.update_of_ne hne ..).trans (if_neg hother)

theorem regular_oneAt {name : String} (h : name ∉ tableNames) : Regular (oneAt name) :=
  Regular.update ⟨fun _ hother => .inl (if_pos hother), fun _ hother => ⟨0, if_neg hother⟩⟩ h 1

end JokerRules
