import UtilityCss.Alpha
import UtilityCss.Bracket.Nesting
import UtilityCss.Bracket.Root
import UtilityCss.Bracket.Value
import UtilityCss.Candidate.Basic
import UtilityCss.Cascade.Key
import UtilityCss.Cascade.NaturalOrder
import UtilityCss.CommandLine.Run
import UtilityCss.Compilation.Basic
import UtilityCss.Completion
import UtilityCss.DataType
import UtilityCss.Finding
import UtilityCss.Main
import UtilityCss.Memo
import UtilityCss.Session.Request
import UtilityCss.Stylesheet.Identifier
import UtilityCss.Stylesheet.Printer
import UtilityCss.Text.Blank
import UtilityCss.Text.Name
import UtilityCss.Text.Numeral
import UtilityCss.Text.Quoted
import UtilityCss.Theme.Stock
import UtilityCss.Utility.Stock
import UtilityCss.Utility.Table
import UtilityCss.Variant.Basic
import UtilityCss.Variant.Resolution
import UtilityCss.Variant.Stock
import UtilityCss.Proofs.Session.Plain
import UtilityCss.Proofs.Session.Transparency
import UtilityCss.Proofs.Bracket.Division
import UtilityCss.Proofs.Compilation.ClosedForm
import UtilityCss.Proofs.Bracket.Roots
import UtilityCss.Proofs.Candidate.Spelling
import UtilityCss.Proofs.Candidate.Reading
import UtilityCss.Proofs.Candidate.Soundness
import UtilityCss.Proofs.Candidate.Completeness
import UtilityCss.Proofs.Cascade.Order
import UtilityCss.Proofs.Cascade.Ranking
import UtilityCss.Proofs.Compilation.Assigning
import UtilityCss.Proofs.Compilation.Faultless
import UtilityCss.Proofs.Session.Verdicts
import UtilityCss.Proofs.Variant.BlockFree
import UtilityCss.Proofs.Variant.Stock
import UtilityCss.Proofs.Bracket.Closed
import UtilityCss.Proofs.Stylesheet.Pieces
import UtilityCss.Proofs.Bracket.Decoding
import UtilityCss.Proofs.Candidate.Texts
import UtilityCss.Proofs.Compilation.Fitting
import UtilityCss.Proofs.Compilation.Blocks
import UtilityCss.Proofs.Stylesheet.ReadBack
import UtilityCss.Proofs.Bracket.Signs
import UtilityCss.Proofs.Bracket.Placeholder
import UtilityCss.Proofs.Variant.Spelling
import UtilityCss.Proofs.Stylesheet.Identifier
import UtilityCss.Proofs.Variant.Wraps
import UtilityCss.Proofs.Variant.Soundness
import UtilityCss.Proofs.Compilation.Balance
import UtilityCss.Proofs.Bracket.Row
import UtilityCss.Proofs.Bracket.Underscored
import UtilityCss.Proofs.Bracket.Kept
import UtilityCss.Proofs.Bracket.Restoring
import UtilityCss.Proofs.Bracket.Pass
import UtilityCss.Proofs.Variant.Regular
import UtilityCss.Proofs.Variant.Rendering
import UtilityCss.Proofs.Bracket.Agreement
import UtilityCss.Proofs.Compilation.Lookup
import UtilityCss.Proofs.Variant.Offers
import UtilityCss.Proofs.Completion.Classes
import UtilityCss.Proofs.Bracket.Segments
import UtilityCss.Proofs.Candidate.Limits
import UtilityCss.Proofs.Candidate.Marks
import UtilityCss.Proofs.Session.Bookkeeping
import UtilityCss.Proofs.Variant.Negation
import UtilityCss.Proofs.Compilation.Entries
import UtilityCss.Proofs.Compilation.Modifiers
import UtilityCss.Proofs.Compilation.Signs
import UtilityCss.Proofs.Compilation.Bracketed
import UtilityCss.Proofs.Decimal.Numeral
import UtilityCss.Proofs.Compilation.BareForms
import UtilityCss.Proofs.Decimal.Binary64
import UtilityCss.Proofs.Compilation.Alpha
import UtilityCss.Proofs.Stylesheet.IdentifierReading
import UtilityCss.Proofs.Candidate.Parts
import UtilityCss.Proofs.Cascade.NaturalOrder
import UtilityCss.Proofs.Variant.WellFormed
import UtilityCss.Proofs.Candidate.WellFormed
import UtilityCss.Proofs.Compilation.Stops
import UtilityCss.Proofs.Variant.Table
import UtilityCss.Proofs.Table.History
import UtilityCss.Proofs.Table.Registration
import UtilityCss.Proofs.Utility.Table
import UtilityCss.Proofs.Table.Index
import UtilityCss.Proofs.Table.Contents
import UtilityCss.Proofs.Variant.Breakpoints
import UtilityCss.Proofs.Cascade.Compounds
import UtilityCss.Proofs.Session.Marks
import UtilityCss.Proofs.Session.Review
import UtilityCss.Proofs.Stylesheet.Rescoping
import UtilityCss.Proofs.Bracket.Search
import UtilityCss.Proofs.Memo.Locks
