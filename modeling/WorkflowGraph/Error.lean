import WorkflowGraph.Condition.Eval
import WorkflowGraph.Duration

/-!
# Causes of failure

Everything that can go wrong is a constructor of one of five types: a malformed
definition (`DefinitionError`), a definition that does not compile
(`CompileError`), a failed task or tool (`TaskError`), a failing checkpoint
store (`StoreError`), and a run that ends early (`RunError`). The wording of each
cause is given by one `message` function. What a reader or a file system says in
its own words is not part of any message; `elided` stands for it.
-/

set_option autoImplicit false

namespace WorkflowGraph

/-- The text that stands for a reason given by a reader or by the file system. -/
def elided : String := "<detail>"

/-- A name in a message. -/
def ticked (name : String) : String := "`" ++ name ++ "`"

/-- Why the text of a definition is refused as a whole. -/
inductive DocumentFault where
  | unreadable
  | notMapping
  deriving DecidableEq, Repr

/-- The wording of a refusal of a whole text. -/
def DocumentFault.message : DocumentFault → String
  | .unreadable => elided
  | .notMapping => "top level must be a mapping"

/-- What a checkpoint store failed to do. -/
inductive StoreError where
  | databaseUnavailable
  | createDirectory
  | createFile
  | renameFile
  | readDirectory
  | openFile
  | readFile
  | deleteDirectory
  | deleteFile
  | decompression
  | deserialization
  deriving DecidableEq, Repr

/-- The wording of a failing store. -/
def StoreError.message : StoreError → String
  | .databaseUnavailable => "sqlite checkpointing requires the `checkpointer-sqlite` feature"
  | .createDirectory => "Failed to create directory: " ++ elided
  | .createFile => "Failed to create temp file: " ++ elided
  | .renameFile => "Failed to rename file: " ++ elided
  | .readDirectory => "Failed to read directory: " ++ elided
  | .openFile => "Failed to open file: " ++ elided
  | .readFile => "Failed to read file: " ++ elided
  | .deleteDirectory => "Failed to delete directory: " ++ elided
  | .deleteFile => "Failed to delete file: " ++ elided
  | .decompression => "Decompression failed: " ++ elided
  | .deserialization => "Deserialization failed: " ++ elided

/-- Why a top-level section of a definition is refused. -/
inductive SectionFault where
  | unreadable
  | blankName
  | notScalar
  | emptyMapping
  | idNotText
  | notList
  | zeroLimit (node : String)
  | store (e : StoreError)
  deriving DecidableEq, Repr

/-- The wording of a refused section. -/
def SectionFault.message : SectionFault → String
  | .unreadable => elided
  | .blankName => "must be a non-empty string"
  | .notScalar => "must be a scalar"
  | .emptyMapping => "must be a non-empty mapping"
  | .idNotText => "node ids must be strings"
  | .notList => "must be a list"
  | .zeroLimit node => "limit for " ++ ticked node ++ " must be at least 1"
  | .store e => "checkpoint error: " ++ e.message

/-- Why the body of a node is refused. -/
inductive NodeFault where
  | unreadable
  | missingType
  | typeNotText
  | taskAndTool
  | noTaskOrTool
  | noOutput
  | taskAndFrom
  | noTaskOrFrom
  | noRoutes
  | routerInMap
  | noTask
  | zeroIterations
  | blankOver
  | itemNotPlain
  | noCollect
  | zeroConcurrency
  | noMessageOrTask
  | interruptInMap
  | graphAndDefinition
  | noGraphOrDefinition
  deriving DecidableEq, Repr

/-- The wording of a refused node. -/
def NodeFault.message : NodeFault → String
  | .unreadable => elided
  | .missingType => "missing `type`"
  | .typeNotText => "`type` must be a string"
  | .taskAndTool => "set either `task` or `tool`, not both"
  | .noTaskOrTool => "one of `task` or `tool` is required"
  | .noOutput => "`output` is required"
  | .taskAndFrom => "set either `task` or `from`, not both"
  | .noTaskOrFrom => "one of `task` or `from` is required"
  | .noRoutes => "`routes` must not be empty"
  | .routerInMap => "routers cannot run inside a map"
  | .noTask => "`task` is required"
  | .zeroIterations => "`max_iterations` must be at least 1"
  | .blankOver => "`over` must name a list field"
  | .itemNotPlain => "`as` must be a plain field name"
  | .noCollect => "`collect` is required"
  | .zeroConcurrency => "`max_concurrency` must be at least 1"
  | .noMessageOrTask => "one of `message` or `task` is required"
  | .interruptInMap => "interrupts cannot run inside a map"
  | .graphAndDefinition => "set either `graph` or `definition`, not both"
  | .noGraphOrDefinition => "one of `graph` or `definition` is required"

/-- Why an edge is refused. -/
inductive EdgeFault where
  | unreadable
  | secondStart
  | startNotPlain
  | leavesEnd
  | noTarget
  | targetsStart
  | leavesRouter
  deriving DecidableEq, Repr

/-- The wording of a refused edge. -/
def EdgeFault.message : EdgeFault → String
  | .unreadable => elided
  | .secondStart => "only one edge may leave START"
  | .startNotPlain => "START needs exactly one unconditional target"
  | .leavesEnd => "END has no outgoing edges"
  | .noTarget => "`to` must not be empty"
  | .targetsStart => "START cannot be an edge target"
  | .leavesRouter => "router transitions come from `routes`, not edges"

/-- Why a source of definition text cannot be loaded. -/
inductive SourceFault where
  | unreadable
  | unknown (reference : String)
  deriving DecidableEq, Repr

/-- The wording of a failed load. -/
def SourceFault.message : SourceFault → String
  | .unreadable => elided
  | .unknown reference => "no source named " ++ ticked reference

/-- A malformed or inconsistent definition. -/
inductive DefinitionError where
  | parse (fault : DocumentFault)
  | missingKey (key : String)
  | unsupportedVersion (version : String)
  | invalidSection (name : String) (fault : SectionFault)
  | unknownNodeType (node kind : String)
  | invalidNode (node : String) (fault : NodeFault)
  | reservedNodeId (id : String)
  | unknownEdgeEndpoint (index : Nat) (source target node : String)
  | invalidEdge (index : Nat) (source : String) (fault : EdgeFault)
  | unknownEntry (node : String)
  | unknownTool (node tool : String)
  | unresolvedToolBinding (tool binding : String)
  | unresolvedTask (node task : String)
  | executorUnavailable (node reason : String)
  | unknownRouteTarget (node route target : String)
  | missingTransition (node : String)
  | ambiguousTransition (node : String)
  | unreachableNode (node entry : String)
  | conflictingMerge (field first firstWriter second secondWriter : String)
  | unknownLoopLimit (node : String)
  | circularSubgraph (chain : List String)
  | subgraphSource (node reference : String) (fault : SourceFault)
  deriving DecidableEq, Repr

/-- The wording of a malformed definition. -/
def DefinitionError.message : DefinitionError → String
  | .parse fault => "failed to parse workflow definition: " ++ fault.message
  | .missingKey key => "missing required top-level key " ++ ticked key
  | .unsupportedVersion v => "unsupported definition version " ++ ticked v
  | .invalidSection name fault => "invalid " ++ ticked name ++ " section: " ++ fault.message
  | .unknownNodeType node kind => "node " ++ ticked node ++ ": unknown node type " ++ ticked kind
  | .invalidNode node fault => "node " ++ ticked node ++ ": " ++ fault.message
  | .reservedNodeId id => "node id " ++ ticked id ++ " is reserved"
  | .unknownEdgeEndpoint index source target node =>
    s!"edge #{index} ({source} -> {target}): unknown node " ++ ticked node
  | .invalidEdge index source fault =>
    s!"edge #{index} from " ++ ticked source ++ ": " ++ fault.message
  | .unknownEntry node => "unknown entry node " ++ ticked node
  | .unknownTool node tool => "node " ++ ticked node ++ ": unknown tool " ++ ticked tool
  | .unresolvedToolBinding tool binding =>
    "tool " ++ ticked tool ++ ": binding " ++ ticked binding ++ " is not registered"
  | .unresolvedTask node task =>
    "node " ++ ticked node ++ ": task " ++ ticked task ++ " is not provided by the executor"
  | .executorUnavailable node reason =>
    "node " ++ ticked node ++ ": executor unavailable: " ++ reason
  | .unknownRouteTarget node route target =>
    "router " ++ ticked node ++ ": route " ++ ticked route ++ " targets unknown node " ++
      ticked target
  | .missingTransition node =>
    "node " ++ ticked node ++ " has no outgoing transition (add an edge to END)"
  | .ambiguousTransition node =>
    "node " ++ ticked node ++ " has more than one unconditional transition"
  | .unreachableNode node entry =>
    "node " ++ ticked node ++ " is unreachable from entry " ++ ticked entry
  | .conflictingMerge field first firstWriter second secondWriter =>
    "field " ++ ticked field ++ " has conflicting merge strategies: " ++ first ++ " (from " ++
      ticked firstWriter ++ ") vs " ++ second ++ " (from " ++ ticked secondWriter ++ ")"
  | .unknownLoopLimit node => "loop limit declared for unknown node " ++ ticked node
  | .circularSubgraph chain =>
    "circular subgraph reference: " ++ String.intercalate " -> " chain
  | .subgraphSource node reference fault =>
    "node " ++ ticked node ++ ": failed to load subgraph " ++ ticked reference ++ ": " ++
      fault.message

/-- Anything that keeps a definition from becoming a runnable graph. -/
inductive CompileError where
  | definition (e : DefinitionError)
  | cycleWithoutLimit (nodes : List String)
  | condition (index : Nat) (node : String) (e : ConditionError)
  | interruptWithoutCheckpointer (node : String)
  | subgraph (node : String) (errors : List CompileError)
  | source (path : String) (fault : SourceFault)

namespace CompileError

mutual

/-- The wording of a compile error; the errors of a subgraph are joined. -/
def message : CompileError → String
  | .definition e => e.message
  | .cycleWithoutLimit nodes => "cycle without loop limit: " ++ String.intercalate ", " nodes
  | .condition index node e => s!"edge #{index} from " ++ ticked node ++ ": " ++ e.message
  | .interruptWithoutCheckpointer node =>
    "node " ++ ticked node ++ " interrupts but the graph has no checkpointer"
  | .subgraph node errors =>
    "subgraph " ++ ticked node ++ ": " ++ String.intercalate "; " (messages errors)
  | .source path fault => "failed to read " ++ ticked path ++ ": " ++ fault.message

/-- The wordings of a list of compile errors. -/
def messages : List CompileError → List String
  | [] => []
  | e :: rest => e.message :: messages rest

end

mutual

/-- The malformed-definition errors in an error, subgraphs included. -/
def definitionErrors : CompileError → List DefinitionError
  | .definition e => [e]
  | .subgraph _ errors => allDefinitionErrors errors
  | _ => []

/-- The malformed-definition errors in a list of errors. -/
def allDefinitionErrors : List CompileError → List DefinitionError
  | [] => []
  | e :: rest => e.definitionErrors ++ allDefinitionErrors rest

end

/-- The wording of a list of errors as one text. -/
def summary (errors : List CompileError) : String := String.intercalate "; " (messages errors)

end CompileError

/-- A failure reported by an executor or a tool. -/
inductive TaskError where
  | failed (task reason : String)
  | unavailable (task reason : String)
  | invalidResult (task reason : String)
  | tool (name reason : String)
  | timeout (task : String) (after : Duration)
  deriving DecidableEq, Repr

/-- The wording of a failed task. -/
def TaskError.message : TaskError → String
  | .failed task reason => "task " ++ ticked task ++ " failed: " ++ reason
  | .unavailable task reason => "task " ++ ticked task ++ " unavailable: " ++ reason
  | .invalidResult task reason =>
    "task " ++ ticked task ++ " returned an invalid result: " ++ reason
  | .tool name reason => "tool " ++ ticked name ++ " failed: " ++ reason
  | .timeout task after => "task " ++ ticked task ++ " timed out after " ++ after.brief

/-- Failures that a further attempt may clear. -/
def TaskError.isTransient : TaskError → Bool
  | .unavailable _ _ => true
  | .timeout _ _ => true
  | _ => false

/-- Why a state cannot be used. -/
inductive StateFault where
  | inputNotObject (typeName : String)
  | unknownNode (node : String)
  deriving DecidableEq, Repr

/-- The wording of an unusable state. -/
def StateFault.message : StateFault → String
  | .inputNotObject typeName => "run input must be an object, got " ++ typeName
  | .unknownNode node => "unknown node " ++ ticked node

/-- An error that ends a run. -/
inductive RunError where
  | nodeExecution (node : String) (attempts : Nat) (cause : TaskError)
  | loopLimitExceeded (node : String) (limit : Nat)
  | unmatchedRoute (node value : String)
  | noMatchingTransition (node : String)
  | workflowTimeout (after : Duration)
  | maxStepsExceeded (limit : Nat)
  | checkpoint (cause : StoreError)
  | noPendingInterrupt (thread : String)
  | state (fault : StateFault)
  deriving DecidableEq, Repr

/-- The wording of an error that ends a run. -/
def RunError.message : RunError → String
  | .nodeExecution node attempts cause =>
    "node " ++ ticked node ++ s!" failed after {attempts} attempt(s): " ++ cause.message
  | .loopLimitExceeded node limit =>
    "node " ++ ticked node ++ s!" exceeded its loop limit of {limit}"
  | .unmatchedRoute node value =>
    "router " ++ ticked node ++ ": value " ++ ticked value ++
      " matches no route and no default_route is configured"
  | .noMatchingTransition node => "node " ++ ticked node ++ ": no outgoing condition matched"
  | .workflowTimeout after => "workflow timed out after " ++ after.brief
  | .maxStepsExceeded limit => s!"max steps exceeded: {limit}"
  | .checkpoint cause => "checkpoint error: " ++ cause.message
  | .noPendingInterrupt thread => "thread " ++ ticked thread ++ " has no pending interrupt"
  | .state fault => "state error: " ++ fault.message

/-- The node that an error belongs to, where there is one. -/
def RunError.node? : RunError → Option String
  | .nodeExecution node _ _ => some node
  | .loopLimitExceeded node _ => some node
  | .unmatchedRoute node _ => some node
  | .noMatchingTransition node => some node
  | _ => none

end WorkflowGraph
