/-!
The faults of items that stop an export. Everything else that is wrong with an item has no effect.
-/

namespace JokerRules

inductive ItemFault
  | missingName (item : String)
  | invalidKey (item : String)
  | duplicateKey (key : String)
  | undeclaredOffsetSlot (item slot : String)
  | conflictingOffsetSlot (item slot offset : String)
deriving DecidableEq, Repr

def ItemFault.message : ItemFault → String
  | missingName item => s!"item '{item}' has no name"
  | invalidKey item =>
    s!"item '{item}' has no usable key; use letters or digits in its name or key"
  | duplicateKey key => s!"duplicate item key '{key}'"
  | undeclaredOffsetSlot item slot =>
    s!"item '{item}' reads offset slot '{slot}' but never declares it"
  | conflictingOffsetSlot item slot offset =>
    s!"item '{item}' reads offset {offset} from slot '{slot}', which also holds another value"

end JokerRules
