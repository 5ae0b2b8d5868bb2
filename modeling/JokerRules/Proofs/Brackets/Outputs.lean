import JokerRules.Proofs.Brackets.Conditions
import JokerRules.Proofs.Plans

/-! Outputs of effects. A plan is tidy if it makes neutral code of every neutral amount. -/

namespace JokerRules.Brackets

open Text

theorem gives_fresh {stem : String} (h : Plain stem) : Gives (fresh stem) Plain :=
  fun _ => plain_nth h _

def NeutralBody : Body → Prop
  | .fields entries => ∀ entry ∈ entries, Neutral entry
  | .closure code => Neutral code
  | .messageOnly => True

structure TidyOutput (o : Output) : Prop where
  body : NeutralBody o.body
  message : ∀ m ∈ o.message, Neutral m
  colour : Neutral o.colour
  hoisted : ∀ statement ∈ o.hoisted, Neutral statement
  slots : ∀ slot ∈ o.newSlots, Plain slot.name

/-- Most outputs declare no slots and have nothing that runs before them. -/
theorem tidy_bare {o : Output} (hbody : NeutralBody o.body) (hmessage : ∀ m ∈ o.message, Neutral m)
    (hcolour : Neutral o.colour) (hhoisted : o.hoisted = []) (hslots : o.newSlots = []) :
    TidyOutput o :=
  ⟨hbody, hmessage, hcolour, by simp [hhoisted], by simp [hslots]⟩

theorem neutral_some {m : String} (h : Neutral m) : ∀ n ∈ some m, Neutral n := by
  rintro n ⟨⟩
  exact h

def TidyPlan {α : Type} (P : α → Prop) : Plan α → Prop
  | .plain make => Gives make P
  | .measured stem _ make => Plain stem ∧ ∀ amount, Neutral amount → Gives (make amount) P

section TidyPlan

variable {α : Type} {P : α → Prop}

theorem tidy_fixed {a : α} (h : P a) : TidyPlan P (.fixed a) :=
  gives_pure h

theorem tidy_reading {stem : String} {f : String → α} (fallback : Value) (hstem : Plain stem)
    (h : ∀ v, Neutral v → P (f v)) : TidyPlan P (.reading stem fallback f) :=
  ⟨hstem, fun v hv => gives_pure (h v hv)⟩

end TidyPlan

theorem neutral_parenthesised {expr : String} (h : Neutral expr) :
    Neutral (parenthesised expr) := by
  simp only [parenthesised]
  split
  · exact neutral_template [.fixed _, .hole _ h, .fixed _] rfl
  · exact h

theorem neutral_assignment (op : Operation) {target amount : String} (htarget : Neutral target)
    (hamount : Neutral amount) : Neutral (op.assignment target amount) := by
  have hamount := neutral_parenthesised hamount
  refine (Neutral.append htarget (neutral_fixed rfl)).append ?_
  cases op with
  | set => exact hamount
  | _ => exact neutral_template [.hole _ htarget, .fixed _, .hole _ hamount] rfl

theorem neutral_change (op : Operation) {current amount : String} (hcurrent : Neutral current)
    (hamount : Neutral amount) : Neutral (op.change current amount) := by
  have hamount := neutral_parenthesised hamount
  cases op with
  | add => exact hamount
  | subtract => exact neutral_template [.fixed _, .hole _ hamount] rfl
  | set => exact neutral_template [.hole _ hamount, .fixed _, .hole _ hcurrent] rfl
  | multiply =>
    exact neutral_template [.hole _ hcurrent, .fixed _, .hole _ hamount, .fixed _] rfl
  | divide =>
    exact neutral_template
      [.hole _ hcurrent, .fixed _, .hole _ hamount, .fixed _, .hole _ hcurrent] rfl

theorem plain_sign (op : Operation) : Plain op.sign := by
  cases op <;> exact plain_fixed (by decide)

theorem neutral_changeMessage (op : Operation) {amount unit : String} (hamount : Neutral amount)
    (hunit : Plain unit) : Neutral (changeMessage op amount unit) := by
  unfold changeMessage
  split
  · exact neutral_template [.fixed _, .word _ (plain_sign op), .fixed _, .hole _ hamount,
      .fixed _] rfl
  · exact neutral_template [.fixed _, .word _ (plain_sign op), .fixed _, .hole _ hamount,
      .fixed _, .word _ hunit, .fixed _] rfl

theorem neutral_seed (e : Effect) (stem : String) : Neutral (e.seed stem) :=
  neutral_singleQuoted _

theorem neutral_event {code : String} (h : Neutral code) : Neutral (event code) := by
  have hfunc : Neutral ("func = " ++ closure code) := (neutral_fixed rfl).append (neutral_closure h)
  exact neutral_template [.fixed _, .hole _ (hfunc.indent 1), .fixed _] rfl

theorem neutral_randomElement {list seed : String} (hlist : Neutral list) (hseed : Neutral seed) :
    Neutral (randomElement list seed) :=
  neutral_template [.fixed _, .hole _ hlist, .fixed _, .hole _ hseed, .fixed _] rfl

theorem neutral_randomName (names : List String) {seed : String} (hseed : Neutral seed) :
    Neutral (randomName names seed) := by
  have hnames : Neutral (", ".intercalate (names.map singleQuoted)) := by
    refine neutral_intercalate (neutral_fixed rfl) ?_
    simp only [List.mem_map, forall_exists_index, and_imp, forall_apply_eq_imp_iff₂]
    exact fun name _ => neutral_singleQuoted name
  exact neutral_randomElement (neutral_template [.fixed _, .hole _ hnames, .fixed _] rfl) hseed

end JokerRules.Brackets
