import Mustache.Text.Blank
import Mustache.Text.Bytes
import Mustache.Text.Search
import Mustache.Text.Indent
import Mustache.Text.Entity
import Mustache.Text.Quoted
import Mustache.Decimal.Shortest
import Mustache.Decimal.Style
import Mustache.Delimiters
import Mustache.Line
import Mustache.Cursor
import Mustache.Error
import Mustache.Segment
import Mustache.Tag
import Mustache.Template
import Mustache.Segment.Override
import Mustache.Segment.Location
import Mustache.Data.Number
import Mustache.Data.Json
import Mustache.Data.Yaml
import Mustache.Data.Tree
import Mustache.Data.Node
import Mustache.Data.Walk
import Mustache.Scope
import Mustache.Partials.Store
import Mustache.Partials.FileTree
import Mustache.Partials.Folder
import Mustache.Render
import Mustache.Page
import Mustache.Proofs.Nesting
import Mustache.Proofs.Offence
import Mustache.Proofs.Boundary
import Mustache.Proofs.Passage
import Mustache.Proofs.Bodies
import Mustache.Proofs.Everywhere
import Mustache.Proofs.Indentation
import Mustache.Proofs.Printing
import Mustache.Proofs.RoundTrip
import Mustache.Proofs.Reader
import Mustache.Proofs.Recoding
import Mustache.Proofs.Lines
import Mustache.Proofs.Regular
import Mustache.Proofs.Seams
import Mustache.Proofs.Enclosure
import Mustache.Proofs.Concatenation
import Mustache.Proofs.WholeLines
import Mustache.Proofs.Rows
import Mustache.Proofs.Standalone
import Mustache.Proofs.CarriageReturns
import Mustache.Proofs.LineEnds
import Mustache.Proofs.Overriding
import Mustache.Proofs.Completion
import Mustache.Proofs.Looks
import Mustache.Proofs.Visits
import Mustache.Proofs.Snapshots
import Mustache.Proofs.Escaping
import Mustache.Proofs.Recognition
import Mustache.Proofs.Scripts
import Mustache.Proofs.Taking
import Mustache.Proofs.Comments
import Mustache.Proofs.Lossless
import Mustache.Proofs.Spans
import Mustache.Proofs.Resolution
import Mustache.Proofs.Complement
import Mustache.Proofs.Memberless
import Mustache.Proofs.Reach
import Mustache.Proofs.Locating
import Mustache.Proofs.Untagged
import Mustache.Proofs.TextLines
import Mustache.Proofs.WellFormed
import Mustache.Proofs.Progress
import Mustache.Proofs.Forms
