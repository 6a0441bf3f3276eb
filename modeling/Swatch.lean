import Swatch.Color.Contrast
import Swatch.Color.Reader
import Swatch.Color.Report
import Swatch.Color.Writer
import Swatch.CommandLine.Command
import Swatch.CommandLine.Grammar
import Swatch.CommandLine.Run
import Swatch.Detection.Detect
import Swatch.Detection.Report
import Swatch.Document.Basic
import Swatch.Files.Disk
import Swatch.Json.Printer
import Swatch.Json.Reader
import Swatch.Json.Shown
import Swatch.Keyed
import Swatch.Log.Entry
import Swatch.Log.Notice
import Swatch.Log.Setup
import Swatch.Log.Template
import Swatch.Main
import Swatch.Number.Scalar
import Swatch.Problem
import Swatch.Proofs.Cache.Receipt
import Swatch.Proofs.Refresh.Origin
import Swatch.Proofs.Refresh.Return
import Swatch.Proofs.Registry.Log
import Swatch.Proofs.Service.Freshness
import Swatch.Proofs.Stylesheet.FixedPoint
import Swatch.Refresh.Run
import Swatch.Refresh.Statistics
import Swatch.Service.Host
import Swatch.Settings.Load
import Swatch.Stylesheet.ClassRule
import Swatch.Stylesheet.Reference
import Swatch.Stylesheet.Report
import Swatch.Stylesheet.Selector
import Swatch.Stylesheet.Sheet
import Swatch.Text.Case
import Swatch.Text.Digit
import Swatch.Text.Scan
import Swatch.Text.Utf8
import Swatch.Workspace.Index
import Swatch.Proofs.Registry.Indexing
import Swatch.Proofs.Detection.Order
import Swatch.Proofs.Number.Rounding
import Swatch.Proofs.Number.Magnitude
import Swatch.Proofs.Number.Finite
import Swatch.Proofs.Color.Reading
import Swatch.Proofs.Document.Lines
import Swatch.Proofs.Text.Scanning
import Swatch.Proofs.Detection.Token
import Swatch.Proofs.Detection.Placement
import Swatch.Proofs.Number.Rational
import Swatch.Proofs.Color.Strength
import Swatch.Proofs.Color.Inverse
import Swatch.Proofs.Number.Numeral
import Swatch.Proofs.Number.Written
import Swatch.Proofs.Color.Gamut
import Swatch.Proofs.Color.Spelling
import Swatch.Proofs.Color.Form
import Swatch.Proofs.Color.Reread
import Swatch.Proofs.Stylesheet.Substitution
import Swatch.Proofs.Registry.Reindexing
import Swatch.Proofs.Stylesheet.Listing
import Swatch.Proofs.Detection.Occurrence
import Swatch.Proofs.Detection.Shadowing
import Swatch.Proofs.Refresh.Queue
import Swatch.Proofs.Refresh.Progress
import Swatch.Proofs.Refresh.Rest
import Swatch.Proofs.Refresh.Descent
import Swatch.Proofs.Cache.Fare
import Swatch.Proofs.Refresh.Conclusion
import Swatch.Proofs.Cache.Blame
import Swatch.Proofs.Cache.Due
import Swatch.Proofs.Cache.Failure
import Swatch.Proofs.Service.Reversion
import Swatch.Proofs.Text.Trimming
import Swatch.Proofs.Stylesheet.Enclosure
import Swatch.Proofs.Stylesheet.Layout
import Swatch.Proofs.Stylesheet.Reach
import Swatch.Proofs.Stylesheet.Comment
import Swatch.Proofs.Stylesheet.Nesting
import Swatch.Proofs.Color.Call
import Swatch.Proofs.Text.Joining
import Swatch.Proofs.Text.Casing
import Swatch.Proofs.Number.Notation
import Swatch.Proofs.Number.Casing
import Swatch.Proofs.Number.Value
import Swatch.Proofs.Number.Estimate
import Swatch.Proofs.Color.Variation
import Swatch.Proofs.Color.Language
import Swatch.Proofs.Color.Range
import Swatch.Proofs.Color.Conversions
import Swatch.Proofs.Color.Canonical
import Swatch.Proofs.Detection.ClassColor
import Swatch.Document.Indexed
import Swatch.Proofs.Detection.Merging
import Swatch.Proofs.Document.Correspondence
import Swatch.Proofs.Detection.Literal
import Swatch.Proofs.Stylesheet.Circle
import Swatch.Proofs.Refresh.Delivery
import Swatch.Proofs.Workspace.Finding
import Swatch.Proofs.Workspace.Overlap
import Swatch.Proofs.Settings.Precedence
import Swatch.Proofs.Log.Restoration
import Swatch.Proofs.Text.Encoding
import Swatch.Proofs.Json.Limit
import Swatch.Proofs.CommandLine.Refusal
import Swatch.Proofs.Refresh.Books
import Swatch.Proofs.Refresh.Remainder
import Swatch.Proofs.Stylesheet.Depth
import Swatch.Proofs.Settings.Casing
