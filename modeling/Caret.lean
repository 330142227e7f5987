import Caret.Text.Bytes
import Caret.Text.Width
import Caret.Text.Word
import Caret.Text.Line
import Caret.Text.Position
import Caret.Stylesheet.Basic
import Caret.Stylesheet.Parse
import Caret.Stylesheet.Value
import Caret.Stylesheet.Section
import Caret.Markup.Tag
import Caret.Markup.Element
import Caret.Markup.Attribute
import Caret.Balance
import Caret.Selection
import Caret.Text.Lowercase
import Caret.Text.Words
import Caret.Language
import Caret.Scope
import Caret.View
import Caret.Document
import Caret.Context
import Caret.Arithmetic.Token
import Caret.Arithmetic.Evaluate
import Caret.Arithmetic.Decimal
import Caret.Arithmetic.Extract
import Caret.Error
import Caret.Abbreviation.TagEnd
import Caret.Abbreviation.Scan
import Caret.Abbreviation.Extract
import Caret.Files
import Caret.Settings
import Caret.Expansion.Session
import Caret.Command
import Caret.Main
import Caret.Proofs.Stylesheet.Token
import Caret.Proofs.Stylesheet.Nesting
import Caret.Proofs.Stylesheet.Ending
import Caret.Proofs.Stylesheet.Reading
import Caret.Proofs.Markup.Tag
import Caret.Proofs.Markup.Pairing
import Caret.Proofs.Markup.Surrounding
import Caret.Proofs.Markup.Chain
import Caret.Proofs.Text.Boundary
import Caret.Proofs.Text.Units
import Caret.Proofs.Abbreviation.WellBracketed
import Caret.Proofs.Abbreviation.Pending
import Caret.Proofs.Abbreviation.Scan
import Caret.Proofs.Abbreviation.Checked
import Caret.Proofs.Abbreviation.Soundness
import Caret.Proofs.Abbreviation.TagEnd
import Caret.Proofs.Abbreviation.Passage
import Caret.Proofs.Abbreviation.Completeness
import Caret.Proofs.Abbreviation.Marker
import Caret.Proofs.Abbreviation.Replacement
import Caret.Proofs.Stylesheet.Comment
import Caret.Proofs.Scope
import Caret.Proofs.Document.Run
import Caret.Proofs.Document.Declaration
import Caret.Proofs.Document.Property
import Caret.Proofs.Arithmetic.Expression
import Caret.Proofs.Arithmetic.Evaluation
import Caret.Proofs.Arithmetic.Extent
import Caret.Proofs.Arithmetic.Extraction
import Caret.Proofs.Stylesheet.Items
import Caret.Proofs.Stylesheet.Phrase
import Caret.Proofs.Stylesheet.Recovery
import Caret.Proofs.Markup.Forest
import Caret.Proofs.Markup.Scanning
import Caret.Proofs.Markup.Recovery
import Caret.Proofs.Text.Part
import Caret.Proofs.Text.Line
import Caret.Proofs.Stylesheet.Shift
import Caret.Proofs.Text.Lower
import Caret.Proofs.Text.Whole
import Caret.Proofs.Markup.RawText
import Caret.Proofs.Document.Placing
import Caret.Proofs.Document.Embedding
import Caret.Proofs.Abbreviation.Extraction
import Caret.Proofs.Markup.Opaque
import Caret.Proofs.Stylesheet.Edge
import Caret.Proofs.Markup.Edge
import Caret.Proofs.Document.Clamping
import Caret.Proofs.Stylesheet.Order
import Caret.Proofs.Stylesheet.Children
import Caret.Proofs.Stylesheet.Around
import Caret.Proofs.Stylesheet.Innermost
import Caret.Proofs.Stylesheet.Chain
import Caret.Proofs.Selection
import Caret.Proofs.Registry
import Caret.Proofs.Expansion.Transcript
import Caret.Proofs.Abbreviation.Idempotence
import Caret.Proofs.Abbreviation.Initial
import Caret.Proofs.Markup.Attribute
import Caret.Proofs.Markup.Terminator
import Caret.Proofs.Abbreviation.Barrier
import Caret.Proofs.Stylesheet.Region
import Caret.Proofs.Stylesheet.Growth
import Caret.Proofs.Stylesheet.Opaque
import Caret.Proofs.Stylesheet.Value
import Caret.Proofs.Stylesheet.Section
import Caret.Proofs.Arithmetic.Nesting
import Caret.Proofs.Arithmetic.Stability
import Caret.Proofs.Markup.Unquoted
import Caret.Proofs.Selection.Ranges
import Caret.Proofs.EnclosingTag
import Caret.Proofs.Scope.Matching
import Caret.Proofs.Document.Gap
import Caret.Proofs.Expansion.Escape
import Caret.Proofs.Markup.AttributeList
import Caret.Proofs.Text.Position
import Caret.Proofs.Command.Position
