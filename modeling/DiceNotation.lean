import DiceNotation.Json.Reader
import DiceNotation.Json.Writer
import DiceNotation.Text.Hidden
import DiceNotation.Text.Blank
import DiceNotation.Text.Quoted
import DiceNotation.Token.Scan
import DiceNotation.Formula.Basic
import DiceNotation.Grammar.Formula
import DiceNotation.Outcome.Pool
import DiceNotation.Chance.Face
import DiceNotation.Stage.Selection
import DiceNotation.Stage.Counting
import DiceNotation.Stage.Rethrow
import DiceNotation.Stage.Alike
import DiceNotation.Formula.Roll
import DiceNotation.Formula.Encode
import DiceNotation.Formula.Decode
import DiceNotation.Outcome.Encode
import DiceNotation.Outcome.Render
import DiceNotation.Session.Basic
import DiceNotation.Proofs.Nesting
import DiceNotation.Proofs.Number.Range
import DiceNotation.Proofs.Number.Exact
import DiceNotation.Proofs.Chance.Gives
import DiceNotation.Proofs.Chance.Bounds
import DiceNotation.Proofs.Formula.Parts
import DiceNotation.Proofs.Formula.Kinds
import DiceNotation.Proofs.Stage.Ordering
import DiceNotation.Proofs.Stage.Marking
import DiceNotation.Proofs.Stage.Throwing
import DiceNotation.Proofs.Stage.Draws
import DiceNotation.Proofs.Stage.Reordering
import DiceNotation.Proofs.Stage.Restamping
import DiceNotation.Proofs.Stage.Idle
import DiceNotation.Proofs.Outcome.Parts
import DiceNotation.Proofs.Outcome.Revising
import DiceNotation.Proofs.Outcome.Assembled
import DiceNotation.Proofs.Outcome.Orderly
import DiceNotation.Proofs.Outcome.Flattening
import DiceNotation.Proofs.Roll.Rolled
import DiceNotation.Proofs.Roll.Modifiers
import DiceNotation.Proofs.Roll.Orderly
import DiceNotation.Proofs.Roll.Conservation
import DiceNotation.Proofs.Roll.Counts
import DiceNotation.Proofs.Roll.Budget
import DiceNotation.Proofs.Roll.Flattening
import DiceNotation.Proofs.Roll.Grouping
import DiceNotation.Proofs.Roll.Insertion
import DiceNotation.Proofs.Outcome.Entries
import DiceNotation.Proofs.Outcome.Totals
import DiceNotation.Proofs.Stage.Tallying
import DiceNotation.Proofs.Roll.Tally
import DiceNotation.Proofs.Outcome.Lawful
import DiceNotation.Proofs.Roll.Dropping
import DiceNotation.Proofs.Arithmetic.Basic
import DiceNotation.Proofs.Roll.Chains
import DiceNotation.Proofs.Arithmetic.Meaning
import DiceNotation.Proofs.Token.Spelling
import DiceNotation.Proofs.Grammar.Reading
import DiceNotation.Proofs.Grammar.Phrases
import DiceNotation.Proofs.Arithmetic.Tokens
import DiceNotation.Proofs.Arithmetic.Parsing
import DiceNotation.Proofs.Token.Matching
import DiceNotation.Proofs.Token.Tiling
import DiceNotation.Proofs.Token.Spacing
import DiceNotation.Proofs.Roll.Refusals
import DiceNotation.Proofs.Grammar.Additions
import DiceNotation.Proofs.Grammar.Notation
import DiceNotation.Proofs.Grammar.Runs
import DiceNotation.Proofs.Grammar.Completeness
import DiceNotation.Proofs.Grammar.Deciding
import DiceNotation.Proofs.Grammar.Decided.Values
import DiceNotation.Proofs.Grammar.Decided.Additions
import DiceNotation.Proofs.Grammar.Decided.Terms
import DiceNotation.Proofs.Grammar.Decided
import DiceNotation.Proofs.Grammar.Language
import DiceNotation.Proofs.Grammar.Blame
import DiceNotation.Proofs.Formula.WellFormed
import DiceNotation.Proofs.Grammar.WellFormed
import DiceNotation.Proofs.Writing.Basic
import DiceNotation.Proofs.Writing.Arranged
import DiceNotation.Proofs.Writing.Said
import DiceNotation.Proofs.Writing.Derived
import DiceNotation.Proofs.Writing.Existence
import DiceNotation.Proofs.Writing.RoundTrip
import DiceNotation.Proofs.Grammar.Blanks
import DiceNotation.Proofs.Formula.Mentions
import DiceNotation.Proofs.Roll.Lookups
import DiceNotation.Proofs.Roll.Replacements
import DiceNotation.Proofs.Session.Resolving
import DiceNotation.Proofs.Session.Rolling
import DiceNotation.Proofs.Session.History
import DiceNotation.Proofs.Json.Fields
import DiceNotation.Proofs.Formula.Rearranged
import DiceNotation.Proofs.Json.Depth
import DiceNotation.Proofs.Formula.Restored
import DiceNotation.Proofs.Json.Numbers
import DiceNotation.Proofs.Json.Written
import DiceNotation.Proofs.Formula.JsonRoundTrip
import DiceNotation.Proofs.Stage.Selecting
import DiceNotation.Proofs.Stage.Endless
import DiceNotation.Proofs.Stage.Succession
import DiceNotation.Proofs.Roll.Worth
import DiceNotation.Proofs.Roll.Throughout
import DiceNotation.Proofs.Session.Sides
import DiceNotation.Proofs.Arithmetic.Joining
import DiceNotation.Proofs.Arithmetic.Formulas
import DiceNotation.Proofs.Arithmetic.Rendering
import DiceNotation.Proofs.Stage.Bursting
import DiceNotation.Proofs.Number.Sums
import DiceNotation.Proofs.Stage.Compounding
import DiceNotation.Proofs.Stage.CompoundRange
import DiceNotation.Proofs.Formula.Rewriting
import DiceNotation.Proofs.Outcome.Labels
import DiceNotation.Proofs.Roll.Rewriting
import DiceNotation.Proofs.Stage.Rethrowing
import DiceNotation.Proofs.Roll.Sorting
import DiceNotation.Proofs.Stage.Matching
import DiceNotation.Proofs.Stage.Tagging
import DiceNotation.Proofs.Outcome.Striking
import DiceNotation.Proofs.Outcome.Layout
