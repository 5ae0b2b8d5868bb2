import JokerRules.Draft
import JokerRules.Trigger

/-!
Generators: computations that turn an effect into code. A generator reads amounts, takes names for
local variables and notes the slots that the code writes, all of it in the draft of the item. It can
give up at any point, and what it has done to the draft by then stays done.
-/

namespace JokerRules

/-- Where an effect is compiled. -/
structure Scene where
  trigger : Trigger
  registry : Registry
  captures : Captures

/-- The draft, and the slots of the amounts that a generator has read so far. -/
structure Workbench where
  draft : Draft
  pending : List Slot := []
deriving DecidableEq

abbrev Generator := ReaderT Scene (OptionT (StateM Workbench))

namespace Generator

def run {α : Type} (g : Generator α) (scene : Scene) (bench : Workbench) : Option α × Workbench :=
  g scene bench

/-- Does something to the workbench. -/
def work {α : Type} (f : Workbench → α × Workbench) : Generator α := fun _ bench =>
  let (a, bench) := f bench
  (some a, bench)

instance : MonadLift Naming Generator where
  monadLift make := work fun bench =>
    let (a, draft) := bench.draft.naming make
    (a, { bench with draft })

def trigger : Generator Trigger :=
  return (← read).trigger

/-- The key of the item in the game. -/
def owner : Generator String :=
  work fun bench => (bench.draft.owner, bench)

def noteWritten (name : String) : Generator Unit :=
  work fun bench => ((), { bench with draft := bench.draft.addWritten name })

end Generator

/-- Reads the amount of an effect, under the next slot name of a stem. An effect that writes a
variable reads all variables live. -/
def Effect.amount (e : Effect) (stem : String) (fallback : Value) : Generator String := do
  let scene ← read
  let captures := if e.kind.writesVariable then {} else scene.captures
  Generator.work fun bench =>
    let (r, draft) := bench.draft.resolve e stem fallback scene.registry captures
    (r.amount.expr, { draft, pending := bench.pending ++ r.newSlots })

end JokerRules
