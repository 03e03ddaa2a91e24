import CppDoc.Main
import CppDoc.Syntax.At
import CppDoc.Proofs.Registry.Edit
import CppDoc.Proofs.Text.Search
import CppDoc.Proofs.Registry.Operations
import CppDoc.Proofs.Reading.Steps
import CppDoc.Proofs.Reading.Header
import CppDoc.Proofs.Reading.Comment
import CppDoc.Proofs.Reading.Documentation
import CppDoc.Proofs.Registry.Reachable
import CppDoc.Proofs.Syntax.Boundary
import CppDoc.Proofs.Syntax.Lookahead
import CppDoc.Proofs.Syntax.Break
import CppDoc.Proofs.Syntax.Parameters
import CppDoc.Proofs.Syntax.ScopePath
import CppDoc.Proofs.Syntax.Indent
import CppDoc.Proofs.Syntax.Written
import CppDoc.Proofs.Registry.Overload
import CppDoc.Proofs.Syntax.Declaration
import CppDoc.Proofs.Reading.Signature
import CppDoc.Proofs.Reading.Documented
import CppDoc.Proofs.Reading.Directive
import CppDoc.Proofs.Syntax.Conversion
import CppDoc.Proofs.Reading.Conversion
import CppDoc.Proofs.Registry.Merge
import CppDoc.Proofs.Manual.Material
import CppDoc.Proofs.Manual.Notes
import CppDoc.Proofs.Manual.Alike
import CppDoc.Proofs.Manual.Blocks
import CppDoc.Proofs.Manual.Settle
import CppDoc.Proofs.Manual.Sections
import CppDoc.Proofs.Manual.Sweep
import CppDoc.Proofs.Manual.Complete
import CppDoc.Proofs.Page.Html
import CppDoc.Proofs.Manual.Layout
import CppDoc.Proofs.Written.Links
import CppDoc.Proofs.Manual.Balance
import CppDoc.Proofs.Page.Split
import CppDoc.Proofs.Page.Store
import CppDoc.Proofs.Written.Pages
import CppDoc.Proofs.Registry.Linked
import CppDoc.Proofs.Syntax.Start
import CppDoc.Proofs.Reading.Parents
import CppDoc.Proofs.Reading.Place
import CppDoc.Proofs.Syntax.NameSpec
import CppDoc.Proofs.Syntax.TypeSpec
import CppDoc.Proofs.Syntax.ParameterSpec
import CppDoc.Proofs.Registry.Filed
import CppDoc.Proofs.Syntax.HeaderSpec
import CppDoc.Proofs.Registry.Declared
import CppDoc.Proofs.Reading.PrintedMember
import CppDoc.Proofs.Reading.PrintedHeader
import CppDoc.Proofs.Syntax.Tidy
import CppDoc.Proofs.Registry.Tidy
import CppDoc.Proofs.Markup.Tokens
import CppDoc.Proofs.Markup.Prose
import CppDoc.Proofs.Markup.Paragraphs
import CppDoc.Proofs.Markup.Arguments
import CppDoc.Proofs.Manual.Spaces
import CppDoc.Proofs.Markup.Spaces
import CppDoc.Proofs.Markup.Independence
import CppDoc.Proofs.Markup.Introductions
import CppDoc.Proofs.Page.JsonText
import CppDoc.Proofs.Page.Json
import CppDoc.Proofs.Page.Division
import CppDoc.Proofs.Page.Carried
import CppDoc.Proofs.Page.Markup
import CppDoc.Proofs.Page.HtmlText
import CppDoc.Proofs.Syntax.Closing
import CppDoc.Proofs.Reading.Enclosed
import CppDoc.Proofs.LineEndings.Text
import CppDoc.Proofs.LineEndings.Scanners
import CppDoc.Proofs.LineEndings.Registry
import CppDoc.Proofs.LineEndings.Moves
import CppDoc.Proofs.LineEndings.Tree
import CppDoc.Proofs.LineEndings.Header
import CppDoc.Proofs.LineEndings.Comment
import CppDoc.Proofs.LineEndings.Markup
import CppDoc.Proofs.LineEndings.Manual
import CppDoc.Proofs.Syntax.Rereading
import CppDoc.Proofs.Syntax.RoundTrip
import CppDoc.Proofs.Syntax.Relaid
import CppDoc.Proofs.Registry.Renamed
import CppDoc.Proofs.Text.Bytes
import CppDoc.Proofs.Reading.Lines
import CppDoc.Proofs.Manual.SoftSpaces
import CppDoc.Proofs.Syntax.ModifierWords
import CppDoc.Proofs.Syntax.Blanked
import CppDoc.Proofs.Syntax.Remarks
import CppDoc.Proofs.Syntax.Leaks
import CppDoc.Proofs.Registry.Ancestors
import CppDoc.Proofs.Markup.Lookup
import CppDoc.Proofs.Markup.Sites
import CppDoc.Proofs.Reading.Onward
import CppDoc.Proofs.Reading.TextLine
import CppDoc.Proofs.Text.Runs
import CppDoc.Proofs.Markup.ClassNames
import CppDoc.Proofs.Registry.Headers
import CppDoc.Proofs.Reading.HeaderFiles
import CppDoc.Proofs.Discovery.Order
import CppDoc.Proofs.Discovery.Paths
import CppDoc.Proofs.Discovery.Walk
import CppDoc.Proofs.Discovery.Sources
import CppDoc.Proofs.Text.Offsets
import CppDoc.Proofs.Syntax.OffsetGaps
import CppDoc.Proofs.Syntax.OffsetNames
import CppDoc.Proofs.Markup.BlockEnds
import CppDoc.Syntax.ReadAt
import CppDoc.Markup.ReadAt
import CppDoc.Proofs.Syntax.OffsetReaders
import CppDoc.Proofs.Markup.OffsetWords
import CppDoc.Proofs.Reading.Scans
import CppDoc.Proofs.Reading.Braces
import CppDoc.Proofs.Markup.OffsetTexts
import CppDoc.Proofs.Reading.Boundaries
import CppDoc.Proofs.Reading.Progress
