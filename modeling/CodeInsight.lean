import CodeInsight.Edit.Buffer
import CodeInsight.Edit.Change
import CodeInsight.Edit.Splice
import CodeInsight.Interchange
import CodeInsight.Outline.Basic
import CodeInsight.Outline.SyntaxTree
import CodeInsight.Outline.Walk
import CodeInsight.Proofs.Edit.Baseline
import CodeInsight.Proofs.Edit.Delivery
import CodeInsight.Proofs.Edit.InRange
import CodeInsight.Proofs.Edit.OneByOne
import CodeInsight.Proofs.Edit.Order
import CodeInsight.Proofs.Edit.Progress
import CodeInsight.Proofs.Edit.Recoding
import CodeInsight.Proofs.Edit.Refusal
import CodeInsight.Proofs.Edit.Removal
import CodeInsight.Proofs.Edit.Replay
import CodeInsight.Proofs.Edit.Simultaneous
import CodeInsight.Proofs.Edit.Versions
import CodeInsight.Proofs.Outline.Ancestors
import CodeInsight.Proofs.Outline.Descent
import CodeInsight.Proofs.Outline.Growth
import CodeInsight.Proofs.Outline.Links
import CodeInsight.Proofs.Outline.Nesting
import CodeInsight.Proofs.Outline.Preorder
import CodeInsight.Proofs.Query.EnclosingCall
import CodeInsight.Proofs.Query.Location
import CodeInsight.Proofs.Query.Members
import CodeInsight.Proofs.Query.Signatures
import CodeInsight.Proofs.Query.VisibleNames
import CodeInsight.Proofs.Reanalysis.Cancellation
import CodeInsight.Proofs.Reanalysis.InFlight
import CodeInsight.Proofs.Reanalysis.Passes
import CodeInsight.Proofs.Reanalysis.Pending
import CodeInsight.Proofs.Reanalysis.Polling
import CodeInsight.Proofs.Reanalysis.Provenance
import CodeInsight.Proofs.Reanalysis.Steps
import CodeInsight.Proofs.Reanalysis.Supersession
import CodeInsight.Proofs.Reanalysis.Waiting
import CodeInsight.Proofs.Run
import CodeInsight.Proofs.Session.Closing
import CodeInsight.Proofs.Session.CurrentSnapshot
import CodeInsight.Proofs.Session.Isolation
import CodeInsight.Proofs.Session.LastRequest
import CodeInsight.Proofs.Session.Operations
import CodeInsight.Proofs.Session.PlainBuffer
import CodeInsight.Proofs.Session.PublishedVersions
import CodeInsight.Proofs.Session.Reopening
import CodeInsight.Proofs.Session.Replay
import CodeInsight.Proofs.Session.SchedulerRun
import CodeInsight.Proofs.Session.Steps
import CodeInsight.Proofs.Symbols.Building
import CodeInsight.Proofs.Symbols.Declarations
import CodeInsight.Proofs.Symbols.Merge
import CodeInsight.Proofs.Symbols.Representation
import CodeInsight.Proofs.Symbols.Resolution
import CodeInsight.Proofs.Symbols.Walks
import CodeInsight.Proofs.Text.Access
import CodeInsight.Proofs.Text.Agreement
import CodeInsight.Proofs.Text.Conversion
import CodeInsight.Proofs.Text.Division
import CodeInsight.Proofs.Text.Lines
import CodeInsight.Proofs.Text.PositionOrder
import CodeInsight.Proofs.Text.Tightness
import CodeInsight.Query.Answers
import CodeInsight.Query.Place
import CodeInsight.Query.Prepared
import CodeInsight.Query.Snapshot
import CodeInsight.Query.Table
import CodeInsight.Reanalysis.Clock
import CodeInsight.Reanalysis.Publication
import CodeInsight.Reanalysis.Request
import CodeInsight.Reanalysis.Scheduler
import CodeInsight.Reanalysis.Script
import CodeInsight.Session
import CodeInsight.Session.OpenDocument
import CodeInsight.Settings
import CodeInsight.Symbols.Member
import CodeInsight.Symbols.Scope
import CodeInsight.Symbols.ScopeTree
import CodeInsight.Symbols.TypeInfo
import CodeInsight.Text.ColumnEncoding
import CodeInsight.Text.LineTable
import CodeInsight.Text.Location
import CodeInsight.Text.Position
import CodeInsight.Text.Span
import CodeInsight.Toml.Lexeme
import CodeInsight.Toml.Quoted
import CodeInsight.Toml.Statement
import CodeInsight.Toml.Table
import CodeInsight.Proofs.Outline.Termination
