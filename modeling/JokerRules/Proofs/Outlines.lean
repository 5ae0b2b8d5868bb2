import JokerRules.Proofs.DroppedFirings

/-! Outlines of the code of a firing. The outline keeps which tables are returned in which
functions, and the text of the outline is the code. -/

namespace JokerRules

open Text Step Calculate

/-- The code of a firing. -/
inductive Code
  | plain (text : String)
  /-- Code that runs if a test comes out true. -/
  | branch (test : String) (body : List Code)
  /-- A returned table: its entries, the body of its function, and the table inside it. -/
  | result (entries : List String) (func : List Code) (extra : Option String)

namespace Code

mutual

def text : Code → String
  | plain text => text
  | branch test body => unlines ["if " ++ test ++ " then", indent 1 (unlines (texts body)), "end"]
  | result entries func extra =>
    let func := if func.isEmpty then [] else ["func = " ++ closure (unlines (texts func))]
    "return " ++ table (entries ++ func ++ extra.toList.map fun table => "extra = " ++ table)

def texts : List Code → List String
  | [] => []
  | c :: cs => c.text :: texts cs

end

mutual

/-- For each returned table that repeats a card, the number of functions around it. -/
def repeatDepths : Code → List Nat
  | plain _ => []
  | branch _ body => allRepeatDepths body
  | result entries func _ =>
    (if entries.any (startsWith "repetitions = ") then [0] else []) ++
      (allRepeatDepths func).map (· + 1)

def allRepeatDepths : List Code → List Nat
  | [] => []
  | c :: cs => c.repeatDepths ++ allRepeatDepths cs

end

/-- The text of statements, unless there are none. -/
def whole? (code : List Code) : Option String :=
  if code.isEmpty then none else some (unlines (texts code))

theorem texts_eq_map (code : List Code) : texts code = code.map text := by
  induction code with
  | nil => rfl
  | cons c cs ih => rw [texts, ih, List.map_cons]

theorem texts_append (code code' : List Code) : texts (code ++ code') = texts code ++ texts code' := by
  simp only [texts_eq_map, List.map_append]

theorem isEmpty_texts (code : List Code) : (texts code).isEmpty = code.isEmpty := by
  cases code <;> rfl

theorem texts_map_plain (statements : List String) : texts (statements.map plain) = statements := by
  rw [texts_eq_map, List.map_map]
  exact List.map_id' statements

theorem allRepeatDepths_append (code code' : List Code) :
    allRepeatDepths (code ++ code') = allRepeatDepths code ++ allRepeatDepths code' := by
  induction code with
  | nil => rfl
  | cons c cs ih => rw [List.cons_append, allRepeatDepths, ih, allRepeatDepths, List.append_assoc]

theorem allRepeatDepths_plain (statements : List String) :
    allRepeatDepths (statements.map plain) = [] := by
  induction statements with
  | nil => rfl
  | cons s statements ih => exact ih

end Code

namespace Bundle

/-- Random blocks run after the statements before the table, or in the function of its
first level. -/
def outline (b : Bundle) (blocks : List Code) : List Code :=
  b.hoisted.map .plain ++
    match contentLevels b.outputs with
    | [] => blocks
    | l :: ls => [.result l.entries (l.code.map .plain ++ blocks) (TableLevel.chain? ls)]

theorem code?_eq_whole (b : Bundle) (blocks : List Code) :
    b.code? (Code.texts blocks) = Code.whole? (b.outline blocks) := by
  cases hlevels : contentLevels b.outputs with
  | nil =>
    rw [Code.whole?, ← Code.isEmpty_texts]
    simp only [Bundle.code?, outline, hlevels, List.isEmpty_nil, if_true, Code.texts_append,
      Code.texts_map_plain]
  | cons l ls =>
    have htext : (Code.result l.entries (l.code.map .plain ++ blocks) (TableLevel.chain? ls)).text =
        "return " ++ { l with code := l.code ++ Code.texts blocks }.render (TableLevel.chain? ls) := by
      rw [Code.text, ← Code.isEmpty_texts, Code.texts_append, Code.texts_map_plain]
      rfl
    rw [code?_of_levels hlevels, Code.whole?, ← Code.isEmpty_texts]
    simp [outline, hlevels, Code.texts_append, Code.texts_map_plain, Code.texts, htext]

end Bundle

/-- The block as code. -/
def RolledBlock.code (b : RolledBlock) : Code :=
  let calls := b.calls.map fun call => Code.plain call.text
  .branch b.test (b.hoisted.map .plain ++
    match b.returned with
    | none => calls
    | some r => [.result r.texts calls none])

theorem RolledBlock.text_code (b : RolledBlock) : b.code.text = b.text := by
  have hcalls : Code.texts (b.calls.map fun call => .plain call.text) = b.calls.map Call.text := by
    rw [Code.texts_eq_map, List.map_map]
    rfl
  rw [code, Code.text, Code.texts_append, Code.texts_map_plain, text, body]
  cases b.returned with
  | none => rw [hcalls]
  | some r =>
    simp only [Code.texts, Code.text, ← Code.isEmpty_texts, hcalls, Option.toList_none, List.map_nil,
      List.append_nil]

def RandomGroup.outline (g : RandomGroup) (t : Trigger) (registry : Registry) :
    StateM Draft (Option Code) :=
  Option.map RolledBlock.code <$> g.block? t registry

namespace Calculate

def blockOutlines (t : Trigger) (registry : Registry) : List RandomGroup → StateM Draft (List Code)
  | [] => pure []
  | g :: gs => do
    let block ← g.outline t registry
    return block.toList ++ (← blockOutlines t registry gs)

def outline (effects : List Effect) (groups : List RandomGroup) (t : Trigger)
    (registry : Registry) : StateM Draft (List Code) := do
  let bundle ← Bundle.compile effects t registry
  return bundle.outline (← blockOutlines t registry groups)

end Calculate

theorem RandomGroup.compile_eq_outline (g : RandomGroup) (t : Trigger) (registry : Registry) :
    g.compile t registry = Option.map Code.text <$> g.outline t registry := by
  rw [g.compile_eq_block, outline, Functor.map_map]
  congr 1
  funext block
  rw [Option.map_map]
  exact congrArg (Option.map · block) (funext fun b => b.text_code.symm)

theorem blocks_eq_outlines (t : Trigger) (registry : Registry) (groups : List RandomGroup) :
    blocks t registry groups = Code.texts <$> blockOutlines t registry groups := by
  induction groups with
  | nil => rfl
  | cons g groups ih =>
    simp only [blocks, blockOutlines, g.compile_eq_outline, ih, map_bind, bind_map_left]
    refine bind_congr fun block => ?_
    cases block <;> simp [Code.texts]

theorem firing?_eq_outline (effects : List Effect) (groups : List RandomGroup) (t : Trigger)
    (registry : Registry) (d : Draft) :
    ((firing? effects groups t registry).run d).1 =
      Code.whole? ((outline effects groups t registry).run d).1 := by
  have hmap : firing? effects groups t registry =
      Code.whole? <$> outline effects groups t registry := by
    simp only [firing?, outline, blocks_eq_outlines, map_bind, bind_map_left, map_pure,
      Bundle.code?_eq_whole]
  rw [hmap]
  rfl

end JokerRules
