import Ry.Lib.Table
import Ry.Lib.Loop
import Ry.Lib.Bytes
import Ry.Lib.Utf8
import Ry.Lib.BigEndian
import Ry.Lib.Surplus
import Ry.Lib.Delimited
import Ry.Lib.Lines
import Ry.Lib.Validate
import Ry.Lib.Preorder
import Ry.Lib.Partition
import Ry.Lib.Bracketing
import Ry.Lib.Listed
import Ry.Lib.Sweep
import Ry.Lib.Slices
import Ry.Lib.Grouping
import Ry.Core.Join
import Ry.Core.Values
import Ry.Core.JoinSound
import Ry.Core.Guarded
import Ry.Core.Evidence
import Ry.Core.Lengths
import Ry.Core.JoinKinds
import Ry.Core.JoinOrder
import Ry.Core.WellFormed
import Ry.Core.Element
import Ry.Core.Ast
import Ry.Core.Arith
import Ry.Scope.State
import Ry.Scope.Mutators
import Ry.Scope.Journal
import Ry.Scope.Rollback
import Ry.Scope.Recorded
import Ry.Scope.Snapshot
import Ry.Scope.Visible
import Ry.Scope.PerName
import Ry.Scope.Inserted
import Ry.Infer.Guard
import Ry.Infer.Unions
import Ry.Infer.Condition
import Ry.Infer.Spellings
import Ry.Infer.LongestArg
import Ry.Infer.Standalone
import Ry.Infer.Narrow
import Ry.Infer.IfMerge
import Ry.Infer.ClonedMerge
import Ry.Infer.MergeName
import Ry.Infer.JournalMerge
import Ry.Infer.Arm
import Ry.Infer.MergeSound
import Ry.Infer.MustFacts
import Ry.Infer.ShortCircuit
import Ry.Infer.Diverges
import Ry.Infer.NeverReturns
import Ry.Infer.Args
import Ry.Infer.Matching
import Ry.Project.Definitions
import Ry.Project.Identity
import Ry.Lib.Strong
import Ry.Project.Components
import Ry.Project.Strong
import Ry.Project.Fixpoint
import Ry.Project.Settled
import Ry.Project.Sweep
import Ry.Workspace.ReportOptions
import Ry.Workspace.Reports
import Ry.Workspace.Mask
import Ry.Workspace.TagWalker
import Ry.Workspace.TagCursor
import Ry.Workspace.Serialized
import Ry.Workspace.TagsExact
import Ry.Workspace.CursorSafe
import Ry.Workspace.CursorWalks
import Ry.Workspace.WalkExact
import Ry.Suppress.Directives
import Ry.Suppress.Lists
import Ry.Suppress.Conservative
import Ry.Suppress.Placed
import Ry.Lsp.Positions
import Ry.Lsp.Documents
import Ry.Lsp.ParsedFile
import Ry.Lsp.OneParse
import Ry.Lsp.RoundTrip
import Ry.Lsp.IgnoreActions
import Ry.Lsp.IgnoreLines
import Ry.Lsp.IgnoreKept
import Ry.Lsp.Batches
import Ry.Lsp.Writer
import Ry.Lsp.Record
import Ry.Lsp.InFlight
import Ry.Lsp.Passes
import Ry.Workspace.Paths
import Ry.Workspace.Discovery
import Ry.Workspace.WalkAdmitted
import Ry.Workspace.BuildIgnore
import Ry.Workspace.Decoding
import Ry.Workspace.Encoding
import Ry.Lib.Asking
import Ry.Box.Modules
import Ry.Box.Cycles
import Ry.S3.Dispatch
import Ry.S4.Inventory
import Ry.S4.Merged
import Ry.S4.Nearest
import Ry.Declared.Compare
import Ry.Declared.Sound
import Ry.Declared.Entry
import Ry.Declared.Calls
import Ry.Declared.Signatures
import Ry.Declared.Spelling
import Ry.Declared.Normal
import Ry.Declared.Canonical
import Ry.Declared.Selected
import Ry.Syntax.Lower
import Ry.Syntax.Nodes
import Ry.Syntax.Lossless
import Ry.Syntax.Escapes
import Ry.Syntax.Literals
import Ry.Syntax.Quoted
import Ry.Reads.Scan
import Ry.Reads.Found
import Ry.Reads.Occurs
import Ry.Reads.Unread
import Ry.Contract.Derive
import Ry.Contract.Eval
import Ry.Contract.Shape
import Ry.Contract.Honest
import Ry.Syntax.Walk
import Ry.Syntax.Walker
import Ry.Suppress.Unchecked
import Ry.Promise.Frame
import Ry.Promise.Mentions
import Ry.Promise.MustForce
import Ry.Promise.Runs
import Ry.Promise.Quoting
import Ry.Promise.Forced
import Ry.Promise.Recursing
import Ry.Promise.Required
import Ry.Config.Baseline
import Ry.Config.PostProcess
import Ry.Config.Load
import Ry.Config.Policy
import Ry.Config.Frontends
import Ry.Cli.Inputs
import Ry.Cli.Watch
import Ry.Cli.Loads
import Ry.Cli.StubLoads
import Ry.Cli.Metadata
import Ry.Cli.Watched
import Ry.Lib.Xml
import Ry.Lib.Commands
import Ry.Report.Render
import Ry.Report.Junit
import Ry.Report.Annotations
import Ry.Report.Rendered
import Ry.Lib.Outcomes
import Ry.Syntax.AnyIn
import Ry.Syntax.Lexical
import Ry.Declared.Typehint
import Ry.Declared.Clauses
import Ry.Declared.Attached
import Ry.Declared.ReadRecords
import Ry.Declared.Contracts
import Ry.Supply.Facts
import Ry.Supply.Walk
import Ry.Supply.Runs
import Ry.Supply.Regular
import Ry.Supply.Straight
import Ry.Supply.Sound
import Ry.Supply.Reached
import Ry.Lib.Merging
import Ry.Project.Collected
import Ry.Lib.EditDistance
import Ry.Infer.Closest
import Ry.Lib.Progression
import Ry.Infer.MixedSign
import Ry.Infer.Subscripts
import Ry.Infer.SubscriptsSound
import Ry.Infer.SubscriptsRaise
import Ry.Lib.Folding
import Ry.Workspace.Description
import Ry.Core.Presentation
import Ry.Core.Budgeted
import Ry.Core.Expanded
import Ry.Core.SameText
import Ry.Workspace.Namespace
import Ry.Workspace.NamespaceRead
