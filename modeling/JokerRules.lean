import JokerRules.Mod
import JokerRules.Item.Json
import JokerRules.Json.Printer
import JokerRules.Json.Reader
import JokerRules.Proofs.Precedence
import JokerRules.Proofs.GuardTrees
import JokerRules.Proofs.Brackets.Layout
import JokerRules.Proofs.Brackets.Effects
import JokerRules.Proofs.Brackets.Definitions
import JokerRules.Proofs.Brackets.Enhancements
import JokerRules.Proofs.Brackets.Joiners
import JokerRules.Proofs.EncodedFields
import JokerRules.Proofs.Series
import JokerRules.Proofs.StepChanges
import JokerRules.Proofs.Storage
import JokerRules.Proofs.Plans
import JokerRules.Proofs.Readings
import JokerRules.Proofs.LiteralSlots
import JokerRules.Proofs.Offsets
import JokerRules.Proofs.SlotNames
import JokerRules.Proofs.Captures
import JokerRules.Proofs.Dropped
import JokerRules.Proofs.Pruning
import JokerRules.Proofs.Evaluation
import JokerRules.Proofs.Numerals
import JokerRules.Proofs.AmountCode
import JokerRules.Proofs.AmountValues
import JokerRules.Proofs.HeldInverse
import JokerRules.Proofs.ItemsAlone
import JokerRules.Proofs.SharedOverrides
import JokerRules.Proofs.RuleOrder
import JokerRules.Proofs.ReturnedTables
import JokerRules.Proofs.RolledBlocks
import JokerRules.Proofs.DecimalText
import JokerRules.Proofs.JsonText
import JokerRules.Proofs.JsonForm
import JokerRules.Proofs.Meanings
import JokerRules.Proofs.Operands
import JokerRules.Proofs.Prices
import JokerRules.Proofs.NestedTables
import JokerRules.Proofs.Operations
import JokerRules.Proofs.SharedOdds
import JokerRules.Proofs.TakenNames
import JokerRules.Proofs.Rewrapping
import JokerRules.Proofs.QuotedTexts
import JokerRules.Proofs.Identifiers
import JokerRules.Proofs.TokenTemplates
import JokerRules.Proofs.ContextTexts
import JokerRules.Proofs.ConditionScope
import JokerRules.Proofs.HeldScope
import JokerRules.Proofs.Occurrences
import JokerRules.Proofs.DrawnOnce
