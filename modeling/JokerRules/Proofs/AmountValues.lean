import JokerRules.Proofs.AmountCode

/-! The values of amounts. In a game whose counted tables are tables or missing and that keeps
numbers everywhere else, every amount is a number. An amount is steady under moves of some numbers
if it makes no draw and does not read them. -/

namespace JokerRules

open Expressions

/-- The names that lead to tables. -/
def Gauge.tables : Gauge → List String
  | plain _ | orZero _ => []
  | entries path => [path]
  | count place path => [place, path]
  | total place _ => [place]

/-- The names that lead to numbers. -/
def Gauge.numbers : Gauge → List String
  | plain path | orZero path | total _ path => [path]
  | entries _ | count _ _ => []

def tableNames : List String :=
  gauges.flatMap Gauge.tables

theorem numbers_notMem_tableNames : ∀ r ∈ gauges, ∀ name ∈ r.numbers, name ∉ tableNames := by
  decide +kernel

structure Regular (g : Game) : Prop where
  table : ∀ name ∈ tableNames, g name = .absent ∨ ∃ n, g name = .table n
  number : ∀ name, name ∉ tableNames → ∃ q, g name = .number q

theorem Regular.update {g : Game} {name : String} (h : Regular g) (hname : name ∉ tableNames)
    (q : ℚ) : Regular (Function.update g name (.number q)) where
  table other hother := by
    have hne : other ≠ name := fun heq => hname (heq ▸ hother)
    rw [Function.update_of_ne hne]
    exact h.table other hother
  number other hother := by
    by_cases heq : other = name
    · exact ⟨q, by rw [heq, Function.update_self]⟩
    · rw [Function.update_of_ne heq]
      exact h.number other hother

theorem second_read (name : String) : (Slot.read name).toList[1]? = some 'a' := by
  rw [toList_read]
  rfl

theorem read_notMem_tableNames (name : String) : Slot.read name ∉ tableNames := by
  have hsecond : ∀ table ∈ tableNames, table.toList[1]? ≠ some 'a' := by decide +kernel
  exact fun hmem => hsecond _ hmem (second_read name)

theorem Gauge.exists_eval {r : Gauge} {g : Game} (hr : r ∈ gauges) (hg : Regular g)
    (chance : Chance) : ∃ q, r.expr.eval chance g = some [.number q] := by
  have htable : ∀ name ∈ r.tables, g name = .absent ∨ ∃ n, g name = .table n :=
    fun name hname => hg.table name (List.mem_flatMap.mpr ⟨r, hr, hname⟩)
  have hnumber : ∀ name ∈ r.numbers, ∃ q, g name = .number q :=
    fun name hname => hg.number name (numbers_notMem_tableNames r hr name hname)
  cases r with
  | plain path =>
    obtain ⟨q, hq⟩ := hnumber path (by simp [numbers])
    exact ⟨q, by simp [expr, Expr.eval, hq]⟩
  | orZero path =>
    obtain ⟨q, hq⟩ := hnumber path (by simp [numbers])
    exact ⟨q, by simp [expr, Expr.eval, Operator.apply?, Datum.isPresent, hq]⟩
  | entries path =>
    rcases htable path (by simp [tables]) with hpath | ⟨n, hpath⟩
    · exact ⟨0, by simp [expr, Expr.eval, Operator.apply?, Datum.isPresent, Sign.apply?, hpath]⟩
    · exact ⟨n, by simp [expr, Expr.eval, Operator.apply?, Datum.isPresent, Sign.apply?, hpath]⟩
  | count place path =>
    rcases htable place (by simp [tables]) with hplace | ⟨m, hplace⟩
    · exact ⟨0, by simp [expr, Expr.eval, Operator.apply?, Datum.isPresent, Sign.apply?, hplace]⟩
    rcases htable path (by simp [tables]) with hpath | ⟨n, hpath⟩
    · exact ⟨0, by simp [expr, Expr.eval, Operator.apply?, Datum.isPresent, Sign.apply?, hplace, hpath]⟩
    · exact ⟨n, by simp [expr, Expr.eval, Operator.apply?, Datum.isPresent, Sign.apply?, hplace, hpath]⟩
  | total place path =>
    rcases htable place (by simp [tables]) with hplace | ⟨m, hplace⟩
    · exact ⟨0, by simp [expr, Expr.eval, Operator.apply?, Datum.isPresent, hplace]⟩
    obtain ⟨q, hpath⟩ := hnumber path (by simp [numbers])
    exact ⟨q, by simp [expr, Expr.eval, Operator.apply?, Datum.isPresent, hplace, hpath]⟩

/-- What a reading is multiplied by. -/
def factor (multiplier : Binary64) : ℚ :=
  if multiplier.equals .one then 1 else multiplier.decimal

theorem factor_ne_zero {multiplier : Binary64} (h : multiplier.isZero = false) :
    factor multiplier ≠ 0 := by
  unfold factor
  split
  · exact one_ne_zero
  · exact fun hzero => by simp [Binary64.decimal_eq_zero_iff.mp hzero] at h

theorem equals_one_of_isZero {multiplier : Binary64} (h : multiplier.isZero = true) :
    multiplier.equals .one = false := by
  have hne : multiplier ≠ .one := fun heq => absurd (heq ▸ h) (by decide)
  have hreal : Binary64.one.isZero = false := rfl
  simp [Binary64.equals, hne, hreal]

section Affine

variable {x : Expr} {multiplier offset : Binary64} {slot : String} {chance chance' : Chance}
  {g h : Game}

theorem eval_affineExpr {v s : ℚ} (hx : x.eval chance g = some [.number v])
    (hs : g slot = .number s) :
    (affineExpr x multiplier offset slot).eval chance g =
      some [.number ((if offset.equals (.zero false) then 0 else s) + v * factor multiplier)] := by
  unfold affineExpr shiftedExpr factor
  by_cases hone : multiplier.equals .one = true <;>
    by_cases hzero : offset.equals (.zero false) = true <;>
    simp [hone, hzero, Expr.eval, Operator.apply?, hx, hs, Binary64.eval_literalExpr]

theorem mem_paths_affineExpr {name : String}
    (hname : name ∈ (affineExpr x multiplier offset slot).paths) : name ∈ x.paths ∨ name = slot := by
  have hliteral : multiplier.literalExpr.paths = [] := by
    unfold Binary64.literalExpr
    split <;> rfl
  unfold affineExpr shiftedExpr at hname
  by_cases hone : multiplier.equals .one = true <;>
    by_cases hzero : offset.equals (.zero false) = true <;>
    simp [hone, hzero, Expr.paths, hliteral] at hname <;> tauto

theorem isPlain_affineExpr (hx : x.isPlain = true) :
    (affineExpr x multiplier offset slot).isPlain = true := by
  have hliteral : multiplier.literalExpr.isPlain = true := by
    unfold Binary64.literalExpr
    split <;> rfl
  unfold affineExpr shiftedExpr
  by_cases hone : multiplier.equals .one = true <;>
    by_cases hzero : offset.equals (.zero false) = true <;>
    simp [hone, hzero, Expr.isPlain, hliteral, hx]

/-- A reading that counts zero times need not be the same. -/
theorem eval_affineExpr_of_isZero {name : String} {v w : ℚ} (hm : multiplier.isZero = true)
    (hg : g name = .number v) (hh : h name = .number w) (hslot : g slot = h slot) :
    (affineExpr (.path name) multiplier offset slot).eval chance g =
      (affineExpr (.path name) multiplier offset slot).eval chance' h := by
  have hone := equals_one_of_isZero hm
  have hdecimal := Binary64.decimal_eq_zero_iff.mpr hm
  by_cases hzero : offset.equals (.zero false) = true <;>
    simp [affineExpr, shiftedExpr, hone, hzero, Expr.eval, Operator.apply?, hg, hh, hslot,
      Binary64.eval_literalExpr, hdecimal]

end Affine

theorem eval_drawnExpr {seed low high : String} {chance : Chance} {g : Game} {v w : ℚ}
    (hlow : g low = .number v) (hhigh : g high = .number w) :
    (drawnExpr seed low high).eval chance g = some [.number (chance seed v w)] := by
  simp [drawnExpr, Expr.eval, Operator.apply?, callValue?, hlow, hhigh]

theorem Gauge.isPlain_expr (r : Gauge) : r.expr.isPlain = true := by
  cases r <;> rfl

theorem Gauge.paths_expr (r : Gauge) : r.expr.paths = r.names := by
  cases r <;> rfl

theorem Amount.Codes.exists_eval {a : Amount} {x : Expr} {g : Game} (h : Codes a x)
    (hg : Regular g) (chance : Chance) : ∃ q, x.eval chance g = some [.number q] := by
  have hslot : ∀ name, ∃ q, g (Slot.read name) = .number q :=
    fun name => hg.number _ (read_notMem_tableNames name)
  cases h with
  | zero => exact ⟨0, rfl⟩
  | @stored slot =>
    obtain ⟨q, hq⟩ := hslot slot
    exact ⟨q, by rw [Expr.eval, hq]⟩
  | @state id var r multiplier offset hvar hr =>
    obtain ⟨v, hv⟩ := Gauge.exists_eval hr hg chance
    obtain ⟨s, hs⟩ := hslot (offsetName var.label)
    exact ⟨_, eval_affineExpr hv hs⟩
  | @drawn hint seed =>
    obtain ⟨low, hlow⟩ := hslot (hint ++ "_min")
    obtain ⟨high, hhigh⟩ := hslot (hint ++ "_max")
    exact ⟨chance seed low high, eval_drawnExpr hlow hhigh⟩

/-- Cells that no slot is kept in and that are only read as they are. -/
structure Movable (cells : List String) : Prop where
  nodup : cells.Nodup
  number : ∀ cell ∈ cells, cell ∉ tableNames
  slot : ∀ name, Slot.read name ∉ cells
  names : ∀ r ∈ gauges, ∀ name ∈ r.names, name ∈ cells → r.text = name
  text : ∀ r ∈ gauges, r.text ∈ cells → r = .plain r.text

/-- The games differ in the numbers of the cells only. -/
def Alike (cells : List String) (g h : Game) : Prop :=
  ∀ name, g name = h name ∨
    name ∈ cells ∧ (∃ v, g name = .number v) ∧ ∃ w, h name = .number w

/-- Whether the amount stays the same while numbers are moved. -/
def Amount.Steady (cells : List String) : Amount → Prop
  | state template multiplier _ _ => template ∉ cells ∨ multiplier.isZero = true
  | drawn .. => False
  | _ => True

instance (cells : List String) : DecidablePred (Amount.Steady cells)
  | .state template multiplier _ _ =>
    inferInstanceAs (Decidable (template ∉ cells ∨ multiplier.isZero = true))
  | .drawn .. => inferInstanceAs (Decidable False)
  | .zero | .stored _ | .captured _ | .constant _ => inferInstanceAs (Decidable True)

section Moved

variable {cells : List String} {a : Amount} {x : Expr} {g h : Game}

theorem Alike.slot (hcells : Movable cells) (halike : Alike cells g h) (name : String) :
    g (Slot.read name) = h (Slot.read name) :=
  (halike _).resolve_right fun hmem => hcells.slot name hmem.1

theorem Alike.update {cell : String} (halike : Alike cells g h) (hcell : cell ∈ cells) {v : ℚ}
    (hv : h cell = .number v) (w : ℚ) : Alike cells g (Function.update h cell (.number w)) := by
  intro name
  by_cases heq : name = cell
  · subst heq
    have hg : ∃ v, g name = .number v :=
      (halike name).elim (fun hsame => ⟨v, hsame.trans hv⟩) fun hmem => hmem.2.1
    exact .inr ⟨hcell, hg, w, Function.update_self ..⟩
  · rw [Function.update_of_ne heq]
    exact halike name

/-- A steady amount is read again as it was, whatever is drawn meanwhile. -/
theorem Amount.Codes.eval_eq (hcode : Codes a x) (hcells : Movable cells) (hsteady : a.Steady cells)
    (halike : Alike cells g h) (chance chance' : Chance) :
    x.eval chance g = x.eval chance' h := by
  cases hcode with
  | zero => rfl
  | @stored slot => rw [Expr.eval, Expr.eval, halike.slot hcells]
  | @state id var r multiplier offset hvar hr htemplate =>
    by_cases hsame : ∀ name ∈ r.names, g name = h name
    · have hplain : (affineExpr r.expr multiplier offset (Slot.read (offsetName var.label))).isPlain :=
        isPlain_affineExpr r.isPlain_expr
      rw [Expr.eval_of_isPlain hplain chance chance']
      refine Expr.eval_congr fun name hname => ?_
      rcases mem_paths_affineExpr hname with hread | rfl
      · exact hsame name (r.paths_expr ▸ hread)
      · exact halike.slot hcells _
    · -- The reading is that of a cell, so it counts zero times.
      simp only [not_forall] at hsame
      obtain ⟨name, hname, hne⟩ := hsame
      obtain ⟨hmem, ⟨v, hv⟩, w, hw⟩ := (halike name).resolve_left hne
      obtain rfl := hcells.names r hr name hname hmem
      have hexpr : r.expr = .path r.text := congrArg Gauge.expr (hcells.text r hr hmem)
      have hzero := hsteady.resolve_left fun hout => hout (htemplate ▸ hmem)
      rw [hexpr]
      exact eval_affineExpr_of_isZero hzero hv hw (halike.slot hcells _)
  | drawn => exact hsteady.elim

/-- An amount that is not steady reads a cell that is moved, or makes a draw. -/
theorem Amount.Codes.reads_or_draws (hcode : Codes a x) (hcells : Movable cells)
    (hmoves : ¬ a.Steady cells) :
    (∃ cell ∈ cells, ∃ multiplier offset slot, multiplier.isZero = false ∧
      x = affineExpr (.path cell) multiplier offset (Slot.read slot)) ∨
    ∃ seed hint, x = drawnExpr seed (Slot.read (hint ++ "_min")) (Slot.read (hint ++ "_max")) := by
  cases hcode with
  | zero | stored => exact absurd trivial hmoves
  | @state id var r multiplier offset hvar hr htemplate =>
    simp only [Amount.Steady, not_or, Decidable.not_not, Bool.not_eq_true, htemplate] at hmoves
    obtain ⟨hmem, hzero⟩ := hmoves
    refine .inl ⟨r.text, hmem, multiplier, offset, offsetName var.label, hzero, ?_⟩
    exact congrArg (fun r => affineExpr (Gauge.expr r) multiplier offset _) (hcells.text r hr hmem)
  | @drawn hint seed => exact .inr ⟨seed, hint, rfl⟩

end Moved

end JokerRules
