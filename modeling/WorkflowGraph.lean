import WorkflowGraph.Activity.Basic
import WorkflowGraph.Activity.Crew
import WorkflowGraph.Activity.Descent
import WorkflowGraph.Activity.Run
import WorkflowGraph.Activity.Settle
import WorkflowGraph.Activity.World
import WorkflowGraph.Checkpoint.Basic
import WorkflowGraph.Checkpoint.Folder
import WorkflowGraph.Checkpoint.Memory
import WorkflowGraph.Checkpoint.Store
import WorkflowGraph.Compiler
import WorkflowGraph.Condition.Eval
import WorkflowGraph.Condition.Expr
import WorkflowGraph.Condition.Token
import WorkflowGraph.Condition.Written
import WorkflowGraph.Config
import WorkflowGraph.Decimal.Layout
import WorkflowGraph.Decimal.Shortest
import WorkflowGraph.Definition.Basic
import WorkflowGraph.Definition.Reader
import WorkflowGraph.Definition.Source
import WorkflowGraph.Definition.Validation
import WorkflowGraph.Definition.Written
import WorkflowGraph.Diagram
import WorkflowGraph.Dict
import WorkflowGraph.Duration
import WorkflowGraph.Error
import WorkflowGraph.ExecutorCache
import WorkflowGraph.FileTree
import WorkflowGraph.Graph.Basic
import WorkflowGraph.Graph.Run
import WorkflowGraph.Graph.Walk
import WorkflowGraph.Json.Document
import WorkflowGraph.Json.Reader
import WorkflowGraph.Json.Writer
import WorkflowGraph.Main
import WorkflowGraph.Message
import WorkflowGraph.Node.Agent
import WorkflowGraph.Node.Execution
import WorkflowGraph.Node.Interrupt
import WorkflowGraph.Node.Map
import WorkflowGraph.Node.Outcome
import WorkflowGraph.Node.Passthrough
import WorkflowGraph.Node.Policy
import WorkflowGraph.Node.Router
import WorkflowGraph.Node.Transform
import WorkflowGraph.Path
import WorkflowGraph.Proofs.Activity.Adequacy
import WorkflowGraph.Proofs.Activity.Client
import WorkflowGraph.Proofs.Activity.Confluence
import WorkflowGraph.Proofs.Activity.Converging
import WorkflowGraph.Proofs.Activity.Course
import WorkflowGraph.Proofs.Activity.Crew
import WorkflowGraph.Proofs.Activity.Echo
import WorkflowGraph.Proofs.Activity.Grounded
import WorkflowGraph.Proofs.Activity.InTurn
import WorkflowGraph.Proofs.Activity.Meets
import WorkflowGraph.Proofs.Activity.Obeys
import WorkflowGraph.Proofs.Activity.Oblivious
import WorkflowGraph.Proofs.Activity.Pairing
import WorkflowGraph.Proofs.Activity.Past
import WorkflowGraph.Proofs.Activity.Rest
import WorkflowGraph.Proofs.Activity.Schedule
import WorkflowGraph.Proofs.Activity.Scheduled
import WorkflowGraph.Proofs.Activity.Seating
import WorkflowGraph.Proofs.Activity.Sharing
import WorkflowGraph.Proofs.Activity.Twins
import WorkflowGraph.Proofs.Activity.Yields
import WorkflowGraph.Proofs.Binary64.Nearest
import WorkflowGraph.Proofs.Binary64.Rounding
import WorkflowGraph.Proofs.Checkpoint.Apart
import WorkflowGraph.Proofs.Checkpoint.Archive
import WorkflowGraph.Proofs.Checkpoint.Folder
import WorkflowGraph.Proofs.Checkpoint.FolderChanges
import WorkflowGraph.Proofs.Checkpoint.Latest
import WorkflowGraph.Proofs.Checkpoint.Memory
import WorkflowGraph.Proofs.Checkpoint.Mirror
import WorkflowGraph.Proofs.Checkpoint.Names
import WorkflowGraph.Proofs.Checkpoint.Shelves
import WorkflowGraph.Proofs.Checkpoint.Threads
import WorkflowGraph.Proofs.Checkpoint.Written
import WorkflowGraph.Proofs.Compiler.Assemble
import WorkflowGraph.Proofs.Compiler.Bounds
import WorkflowGraph.Proofs.Compiler.Embedding
import WorkflowGraph.Proofs.Compiler.Halting
import WorkflowGraph.Proofs.Compiler.Inline
import WorkflowGraph.Proofs.Compiler.Nesting
import WorkflowGraph.Proofs.Compiler.References
import WorkflowGraph.Proofs.Compiler.Reports
import WorkflowGraph.Proofs.Compiler.Stages
import WorkflowGraph.Proofs.Compiler.Uninterrupted
import WorkflowGraph.Proofs.Compiler.Wiring
import WorkflowGraph.Proofs.Condition.Boundaries
import WorkflowGraph.Proofs.Condition.Comparison
import WorkflowGraph.Proofs.Condition.Cursor
import WorkflowGraph.Proofs.Condition.Grammar
import WorkflowGraph.Proofs.Condition.Lookups
import WorkflowGraph.Proofs.Condition.Parsing
import WorkflowGraph.Proofs.Condition.Spelling
import WorkflowGraph.Proofs.Condition.Words
import WorkflowGraph.Proofs.Decimal.Layout
import WorkflowGraph.Proofs.Decimal.Shortest
import WorkflowGraph.Proofs.Definition.Depth
import WorkflowGraph.Proofs.Definition.Ids
import WorkflowGraph.Proofs.Definition.Reading
import WorkflowGraph.Proofs.Definition.Source
import WorkflowGraph.Proofs.Diagram
import WorkflowGraph.Proofs.Dict
import WorkflowGraph.Proofs.ExecutorCache
import WorkflowGraph.Proofs.FileTree.Changes
import WorkflowGraph.Proofs.FileTree.Paths
import WorkflowGraph.Proofs.Graph.Boundary
import WorkflowGraph.Proofs.Graph.Calls
import WorkflowGraph.Proofs.Graph.Closed
import WorkflowGraph.Proofs.Graph.Coherence
import WorkflowGraph.Proofs.Graph.Continuation
import WorkflowGraph.Proofs.Graph.Contributions
import WorkflowGraph.Proofs.Graph.Discipline
import WorkflowGraph.Proofs.Graph.Grounded
import WorkflowGraph.Proofs.Graph.Isolation
import WorkflowGraph.Proofs.Graph.Journal
import WorkflowGraph.Proofs.Graph.Journey
import WorkflowGraph.Proofs.Graph.Keeping
import WorkflowGraph.Proofs.Graph.Ledger
import WorkflowGraph.Proofs.Graph.Limits
import WorkflowGraph.Proofs.Graph.Oblivious
import WorkflowGraph.Proofs.Graph.Order
import WorkflowGraph.Proofs.Graph.Pending
import WorkflowGraph.Proofs.Graph.ReadBack
import WorkflowGraph.Proofs.Graph.Reentry
import WorkflowGraph.Proofs.Graph.Replay
import WorkflowGraph.Proofs.Graph.Rerun
import WorkflowGraph.Proofs.Graph.Retry
import WorkflowGraph.Proofs.Graph.Suspension
import WorkflowGraph.Proofs.Graph.Termination
import WorkflowGraph.Proofs.Graph.Uninterrupted
import WorkflowGraph.Proofs.Graph.Walk
import WorkflowGraph.Proofs.Json.Writer
import WorkflowGraph.Proofs.Node.Attempts
import WorkflowGraph.Proofs.Node.Backoff
import WorkflowGraph.Proofs.Node.Conversation
import WorkflowGraph.Proofs.Node.Counting
import WorkflowGraph.Proofs.Node.Execution
import WorkflowGraph.Proofs.Node.FanOut
import WorkflowGraph.Proofs.Node.Increment
import WorkflowGraph.Proofs.Node.Writes
import WorkflowGraph.Proofs.Shape.Coverage
import WorkflowGraph.Proofs.Shape.Drafting
import WorkflowGraph.Proofs.Shape.ReadBack
import WorkflowGraph.Proofs.Shape.Types
import WorkflowGraph.Proofs.Shape.Writes
import WorkflowGraph.Proofs.State.Merging
import WorkflowGraph.Proofs.Template
import WorkflowGraph.Proofs.Template.Cutting
import WorkflowGraph.Proofs.Text
import WorkflowGraph.Proofs.Text.Pattern
import WorkflowGraph.Proofs.Text.Percent
import WorkflowGraph.Proofs.Thread
import WorkflowGraph.Proofs.Transition.Component
import WorkflowGraph.Proofs.Transition.Cycle
import WorkflowGraph.Proofs.Transition.EdgeList
import WorkflowGraph.Proofs.Transition.Limits
import WorkflowGraph.Proofs.Transition.Reach
import WorkflowGraph.Proofs.Transition.Table
import WorkflowGraph.Proofs.Transition.Targets
import WorkflowGraph.Proofs.Validator
import WorkflowGraph.Proofs.Yaml.Depth
import WorkflowGraph.Proofs.Yaml.Document
import WorkflowGraph.Proofs.Yaml.Reading
import WorkflowGraph.Proofs.Yaml.Spelling
import WorkflowGraph.Record
import WorkflowGraph.Shape.Basic
import WorkflowGraph.Shape.Inference
import WorkflowGraph.State.Basic
import WorkflowGraph.State.Record
import WorkflowGraph.Task
import WorkflowGraph.Template
import WorkflowGraph.Text.Alphanumeric
import WorkflowGraph.Text.Blank
import WorkflowGraph.Text.Percent
import WorkflowGraph.Text.Quoted
import WorkflowGraph.Timestamp
import WorkflowGraph.Tool
import WorkflowGraph.Transition.Basic
import WorkflowGraph.Transition.Component
import WorkflowGraph.Transition.Table
import WorkflowGraph.Validator.Options
import WorkflowGraph.Validator.Reference
import WorkflowGraph.Validator.Report
import WorkflowGraph.Validator.Run
import WorkflowGraph.Value
import WorkflowGraph.Yaml.Document
import WorkflowGraph.Yaml.Draft
import WorkflowGraph.Yaml.Field
import WorkflowGraph.Yaml.Node
import WorkflowGraph.Yaml.Record
import WorkflowGraph.Yaml.Scalar
import WorkflowGraph.Yaml.Tag
import WorkflowGraph.Yaml.Token
