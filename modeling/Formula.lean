import Formula.Text.Blank
import Formula.Text.Digit
import Formula.Text.Letter
import Formula.Text.Occurrence
import Formula.Text.Printable
import Formula.Text.Range
import Formula.Text.UpperCase
import Formula.Text.Word
import Formula.Log
import Formula.Tex.Accent
import Formula.Tex.Atom
import Formula.Tex.Bold
import Formula.Tex.Canonical
import Formula.Tex.Control
import Formula.Tex.Group
import Formula.Tex.Limits
import Formula.Tex.Mode
import Formula.Tex.Prescript
import Formula.Tex.RunningText
import Formula.Tex.Script
import Formula.Tex.ScriptPair
import Formula.Recognition
import Formula.Compile.Engine
import Formula.Compile.Multiscripts
import Formula.Compile.Placeholder
import Formula.Compile.Row
import Formula.Markup.CleanUp
import Formula.Markup.DotAccent
import Formula.Markup.Filler
import Formula.Markup.Layout
import Formula.Markup.Pruning
import Formula.Markup.Root
import Formula.Markup.Tag
import Formula.Conversion
import Formula.Service.Query
import Formula.Service.Routes
import Formula.Settings
import Formula.FilePath
import Formula.Logging
import Formula.Proofs.Tex.Balanced
import Formula.Proofs.Tex.Reading
import Formula.Proofs.Tex.Splitting
import Formula.Proofs.Tex.BraceDepth
import Formula.Proofs.Tex.Blanks
import Formula.Proofs.Tex.Sweep
import Formula.Proofs.Tex.TextBlock
import Formula.Proofs.Tex.Inside
import Formula.Proofs.Tex.Environments
import Formula.Proofs.Tex.Nesting
import Formula.Proofs.Tex.NestedPrescripts
import Formula.Proofs.Tex.Counting
import Formula.Proofs.Tex.Unchanged
import Formula.Proofs.Tex.Settled
import Formula.Proofs.Tex.Weight
import Formula.Proofs.Tex.Spending
import Formula.Proofs.Text.Numeral
import Formula.Proofs.Compile.Decoding
import Formula.Proofs.Compile.Outcome
import Formula.Proofs.Compile.Walk
import Formula.Proofs.Compile.Holder
import Formula.Proofs.Compile.Plain
import Formula.Proofs.Tex.Tokens
import Formula.Proofs.Tex.Cues
import Formula.Proofs.Markup.Fragment
import Formula.Proofs.Markup.Pruning
import Formula.Proofs.Markup.Attributes
import Formula.Proofs.Markup.DotSigns
import Formula.Proofs.Markup.Regular
import Formula.Proofs.Markup.Declaring
import Formula.Proofs.Markup.Fronts
import Formula.Proofs.Markup.Filling
import Formula.Proofs.Markup.Marking
import Formula.Proofs.Markup.Accents
import Formula.Proofs.Markup.MarkedOnce
import Formula.Proofs.Markup.Namespace
import Formula.Proofs.Markup.Losses
import Formula.Proofs.Markup.Ledger
import Formula.Proofs.Markup.CleanUp
import Formula.Proofs.Markup.Arguments
import Formula.Proofs.Markup.Survival
import Formula.Proofs.Conversion
import Formula.Proofs.Recognition
import Formula.Proofs.Service.Agreement
import Formula.Proofs.Markup.Prefixing
import Formula.Proofs.Markup.Independence
import Formula.Proofs.Tex.Searching
import Formula.Proofs.Tex.Commands
import Formula.Proofs.Tex.BoldArguments
import Formula.Proofs.Tex.Ordinary
import Formula.Proofs.Markup.LayoutAttributes
import Formula.Proofs.Tex.EmptyGroups
import Formula.Proofs.Compile.LineBreaks
import Formula.Proofs.Tex.AccentedPrescripts
import Formula.Proofs.Tex.CleaningOrder
import Formula.Proofs.Tex.Positions
import Formula.Proofs.Tex.Cursors
import Formula.Proofs.Tex.Progress
import Formula.Proofs.Tex.Rereading
import Formula.Proofs.Tex.Enclosing
import Formula.Proofs.Recognition.Wrapping
import Formula.Proofs.Recognition.Leftover
import Formula.Proofs.Compile.RenamedSources
