import PieceSequencer.Bag.Arena
import PieceSequencer.Bag.Basic
import PieceSequencer.Bag.Error
import PieceSequencer.Bag.Traversal
import PieceSequencer.Binary64.Basic
import PieceSequencer.Binary64.Decimal
import PieceSequencer.Binary64.Layout
import PieceSequencer.Binary64.Rounding
import PieceSequencer.Catalogue.Basic
import PieceSequencer.Catalogue.Document
import PieceSequencer.Catalogue.Standard
import PieceSequencer.Catalogue.Validation
import PieceSequencer.Cli.Command
import PieceSequencer.Cli.Config
import PieceSequencer.Cli.Error
import PieceSequencer.Cli.KeyLine
import PieceSequencer.Cli.Report
import PieceSequencer.Json.Basic
import PieceSequencer.Json.Fault
import PieceSequencer.Json.Reader
import PieceSequencer.Json.Record
import PieceSequencer.Pattern.Basic
import PieceSequencer.Pattern.Document
import PieceSequencer.Pattern.Error
import PieceSequencer.Pattern.Grammar
import PieceSequencer.Pattern.Length
import PieceSequencer.Pattern.Meaning
import PieceSequencer.Pattern.Parser
import PieceSequencer.Pattern.Scanner
import PieceSequencer.Pattern.Token
import PieceSequencer.Pattern.WellFormed
import PieceSequencer.Piece.Basic
import PieceSequencer.Piece.Key
import PieceSequencer.Shuffle.Basic
import PieceSequencer.Shuffle.Congruential
import PieceSequencer.Text.Blank
import PieceSequencer.Text.Numeral
import PieceSequencer.Text.Printable
import PieceSequencer.Text.Quoted
import PieceSequencer.Main
import PieceSequencer.Proofs.Text.Numeral
import PieceSequencer.Proofs.Binary64.Rounding
import PieceSequencer.Proofs.Binary64.Decimal
import PieceSequencer.Proofs.Json.Number
import PieceSequencer.Proofs.Json.Layout
import PieceSequencer.Proofs.Json.Recovery
import PieceSequencer.Proofs.Catalogue.Document
import PieceSequencer.Proofs.Catalogue.Keys
import PieceSequencer.Proofs.Pattern.Derivation
import PieceSequencer.Proofs.Pattern.CanonicalText
import PieceSequencer.Proofs.Pattern.Passage
import PieceSequencer.Proofs.Pattern.Length
import PieceSequencer.Proofs.Pattern.Tally
import PieceSequencer.Proofs.Pattern.Enclosing
import PieceSequencer.Proofs.Pattern.Window
import PieceSequencer.Proofs.Bag.Layout
import PieceSequencer.Proofs.Bag.Walk
import PieceSequencer.Proofs.Bag.Path
import PieceSequencer.Proofs.Bag.Course
import PieceSequencer.Proofs.Bag.Stream
import PieceSequencer.Proofs.Bag.Cursor
import PieceSequencer.Proofs.Bag.Length
import PieceSequencer.Proofs.Bag.Conservation
import PieceSequencer.Proofs.Bag.Enclosing
import PieceSequencer.Proofs.Bag.Calls
import PieceSequencer.Proofs.Bag.Soundness
import PieceSequencer.Proofs.Bag.Halt
import PieceSequencer.Proofs.Bag.Window
import PieceSequencer.Proofs.Cli.Command
import PieceSequencer.Proofs.Cli.Override
import PieceSequencer.Proofs.FirstFault
import PieceSequencer.Proofs.Pattern.Words
import PieceSequencer.Proofs.Pattern.Spacing
import PieceSequencer.Proofs.Pattern.Refusal
import PieceSequencer.Proofs.Catalogue.Validation
import PieceSequencer.Proofs.Shuffle.Period
import PieceSequencer.Proofs.Shuffle.Exchange
import PieceSequencer.Proofs.Shuffle.Resumption
import PieceSequencer.Proofs.Binary64.Nearest
import PieceSequencer.Proofs.Binary64.HalfIntegral
import PieceSequencer.Proofs.Catalogue.Pivot
import PieceSequencer.Proofs.Pattern.Continuation
import PieceSequencer.Proofs.Pattern.Expansion
import PieceSequencer.Proofs.Bag.Draws
import PieceSequencer.Proofs.Bag.Undrawn
import PieceSequencer.Proofs.Pattern.Composition
import PieceSequencer.Proofs.Bag.Alternation
import PieceSequencer.Proofs.Bag.ReadBack
