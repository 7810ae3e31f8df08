import WorkflowGraph.Duration
import WorkflowGraph.Shape.Basic
import WorkflowGraph.Value

/-!
# Workflow definitions

A definition declares the nodes of a graph, the edges between them, the tools
that nodes may call, and defaults for all of them. The kinds of nodes are a
closed set, `NodeKind`; a map node carries the kind of the node that it runs for
every item, whose id is the map's own id with `.node` behind it.
-/

set_option autoImplicit false

namespace WorkflowGraph

/-- A duration as a value. -/
def Duration.value (d : Duration) : Value := .text d.written

/-- The name of the place a graph starts from. -/
def startMarker : String := "START"

/-- The name of the place a graph ends at. -/
def endMarker : String := "END"

/-- Whether a name is one of the two markers, which no node may have. -/
def isMarker (id : String) : Bool := id == startMarker || id == endMarker

/-- What happens when a node fails. -/
inductive ErrorPolicy where
  | fail
  | skip
  | retry
  | fallback
  deriving DecidableEq, Repr, Inhabited

/-- The name of a policy. -/
def ErrorPolicy.name : ErrorPolicy → String
  | .fail => "fail"
  | .skip => "skip"
  | .retry => "retry"
  | .fallback => "fallback"

/-- All policies. -/
def ErrorPolicy.all : List ErrorPolicy := [.fail, .skip, .retry, .fallback]

/-- The policy with a name. -/
def ErrorPolicy.ofName? : String → Option ErrorPolicy
  | "fail" => some .fail
  | "skip" => some .skip
  | "retry" => some .retry
  | "fallback" => some .fallback
  | _ => none

/-- A finite number, exact where it is an integer. -/
inductive Number where
  | int (n : Int)
  | float (x : Float)

/-- A number as a value. -/
def Number.value : Number → Value
  | .int n => .int n
  | .float x => .float x

/-- The options that every kind of node has. -/
structure NodeOptions where
  description : Option String
  output : Option String
  outputType : Option FieldType
  outputSchema : Option Value
  merge : Option MergeStrategy
  onError : ErrorPolicy
  maxRetries : Option Nat
  fallback : Option Value
  backend : Option Value
  requires : List String
  skipIfExists : Option Bool
  timeout : Option Duration

/-- The options of a node that sets none. -/
def NodeOptions.unset : NodeOptions :=
  ⟨none, none, none, none, none, .fail, none, none, none, [], none, none⟩

/-- A node that makes one call and writes its result. Variables are read from the
paths in `inputs`; `args` are variables with fixed values. -/
structure TransformSpec where
  task : Option String
  tool : Option String
  inputs : Dict String
  args : Dict Value

/-- A node whose value decides which node comes next. -/
structure RouterSpec where
  task : Option String
  source : Option String
  inputs : Dict String
  routes : Dict String
  defaultRoute : Option String
  classificationKey : String

/-- A node that calls an executor until it asks for no further tool. -/
structure AgentSpec where
  task : String
  tools : List String
  maxIterations : Option Nat
  messagesField : Option String
  inputs : Dict String

/-- A node that runs another node for every item of a list. -/
structure MapSpec where
  source : String
  item : String
  collect : String
  maxConcurrency : Option Nat

/-- The field that holds the index of the item that a map task runs for. -/
def MapSpec.indexField (spec : MapSpec) : String := spec.item ++ "_index"

/-- A node that waits for a value from the caller of the run. -/
structure InterruptSpec where
  message : Option String
  task : Option String
  inputs : Dict String
  resumeKey : String

/-- A node that runs another graph. -/
structure SubgraphSpec where
  graph : Option String
  definition : Option Value
  inputMapping : Dict String
  outputMapping : Dict String
  interruptMapping : Dict String

/-- A node that only rearranges the state. -/
structure PassthroughSpec where
  set : Dict Value
  copy : Dict String
  increment : Dict Number

/-- The fields that a passthrough node writes, in rising order and each once. -/
def PassthroughSpec.targets (spec : PassthroughSpec) : List String :=
  Dict.names <|
    (spec.set.names ++ spec.copy.names ++ spec.increment.names).foldl
      (fun d field => Dict.put d field ()) []

/-- The kind of a node. A map carries the options and the kind of its inner node. -/
inductive NodeKind where
  | transform (spec : TransformSpec)
  | router (spec : RouterSpec)
  | agent (spec : AgentSpec)
  | map (spec : MapSpec) (options : NodeOptions) (inner : NodeKind)
  | interrupt (spec : InterruptSpec)
  | subgraph (spec : SubgraphSpec)
  | passthrough (spec : PassthroughSpec)

namespace NodeKind

/-- The name of a kind. -/
def name : NodeKind → String
  | .transform _ => "transform"
  | .router _ => "router"
  | .agent _ => "agent"
  | .map _ _ _ => "map"
  | .interrupt _ => "interrupt"
  | .subgraph _ => "subgraph"
  | .passthrough _ => "passthrough"

/-- The names of all kinds. -/
def names : List String :=
  ["transform", "router", "agent", "map", "interrupt", "subgraph", "passthrough"]

/-- Whether the node decides by itself which node comes next. -/
def isRouter : NodeKind → Bool
  | .router _ => true
  | _ => false

end NodeKind

/-- A declared node. -/
structure NodeDecl where
  id : String
  kind : NodeKind
  options : NodeOptions

namespace NodeDecl

/-- The id of the node that a map runs for every item. -/
def innerId (id : String) : String := id ++ ".node"

/-- The field that holds the result of a node with a single result. -/
def outputField? (node : NodeDecl) : Option String :=
  match node.kind with
  | .router _ => some (node.options.output.getD (node.id ++ "_route"))
  | .interrupt _ => some (node.options.output.getD (node.id ++ "_message"))
  | .map spec _ _ => some spec.collect
  | .transform _ | .agent _ => node.options.output
  | .subgraph _ | .passthrough _ => none

/-- The field that a router writes its value to. -/
def routeField (node : NodeDecl) : String := node.options.output.getD (node.id ++ "_route")

/-- The type that the options give to the output, directly or through a schema. -/
def declaredType? (node : NodeDecl) : Option FieldType :=
  match node.options.outputType with
  | some t => some t
  | none =>
    match node.options.outputSchema.bind fun schema => schema.field? "type" with
    | some (.text name) => FieldType.ofSchemaName? name
    | _ => none

/-- The first interrupt in a node, looking through maps. -/
def interruptIn? (id : String) : NodeKind → Option String
  | .interrupt _ => some id
  | .map _ _ inner => interruptIn? (innerId id) inner
  | _ => none

/-- The subgraph in a node, looking through maps, and its declaration. -/
def subgraph? (id : String) (options : NodeOptions) : NodeKind → Option (NodeDecl × SubgraphSpec)
  | .map _ innerOptions inner => subgraph? (innerId id) innerOptions inner
  | .subgraph spec => some (⟨id, .subgraph spec, options⟩, spec)
  | _ => none

/-- A node, followed by the node that it runs for every item, and so on. -/
def nest (id : String) (options : NodeOptions) : NodeKind → List NodeDecl
  | .map spec innerOptions inner =>
    ⟨id, .map spec innerOptions inner, options⟩ :: nest (innerId id) innerOptions inner
  | kind => [⟨id, kind, options⟩]

end NodeDecl

/-- Where an edge leads: to one node, or to a list of them. -/
inductive EdgeTargets where
  | one (id : String)
  | many (ids : List String)
  deriving DecidableEq, Repr

/-- The nodes that an edge leads to. -/
def EdgeTargets.ids : EdgeTargets → List String
  | .one id => [id]
  | .many ids => ids

/-- A declared edge. -/
structure EdgeDecl where
  source : String
  destination : EdgeTargets
  condition : Option String
  deriving DecidableEq, Repr

/-- The nodes that an edge leads to. -/
def EdgeDecl.targets (e : EdgeDecl) : List String := e.destination.ids

/-- A declared tool. Without a binding it is bound to the registered tool of its
own name. -/
structure ToolDecl where
  binding : Option String
  description : Option String
  parameters : Option Value

/-- Values that hold for all nodes that do not set their own. -/
structure Defaults where
  maxRetries : Nat
  loopLimit : Option Nat
  skipIfExists : Bool
  maxSteps : Nat
  parallelism : Option Nat
  checkpointInterval : Nat
  checkpointRetention : Option Nat
  nodeTimeout : Option Duration
  workflowTimeout : Option Duration
  backoffBase : Duration
  backoffMax : Duration
  backend : Option Value
  messagesField : String
  maxIterations : Nat

/-- The defaults of a definition that sets none. -/
def Defaults.standard : Defaults where
  maxRetries := 3
  loopLimit := none
  skipIfExists := true
  maxSteps := 100
  parallelism := none
  checkpointInterval := 1
  checkpointRetention := none
  nodeTimeout := none
  workflowTimeout := none
  backoffBase := .ofMillis 100
  backoffMax := .ofSeconds 10
  backend := none
  messagesField := "messages"
  maxIterations := 10

/-- Where checkpoints are kept. -/
inductive StoreConfig where
  | memory
  | file (path : String) (compression : Bool)
  | database (path : String) (compression : Bool)
  deriving DecidableEq, Repr

/-- A workflow definition. The nodes stand in the order of their declaration. -/
structure Definition where
  version : Option String
  name : String
  description : Option String
  entry : Option String
  defaults : Defaults
  tools : Dict ToolDecl
  nodes : List NodeDecl
  edges : List EdgeDecl
  loopLimits : Dict Nat
  checkpoint : Option StoreConfig

namespace Definition

/-- The declaration of a node; of two nodes with one id the first. -/
def node? (d : Definition) (id : String) : Option NodeDecl := d.nodes.find? fun n => n.id == id

/-- Whether a node is declared. -/
def hasNode (d : Definition) (id : String) : Bool := (d.node? id).isSome

/-- The ids of the nodes in the order of their declaration. -/
def nodeIds (d : Definition) : List String := d.nodes.map NodeDecl.id

/-- The node that a run starts at: the one that `entry` names, else the target of
the edge that leaves the start marker, else the first node. -/
def entryPoint? (d : Definition) : Option String :=
  match d.entry with
  | some id => some id
  | none =>
    match (d.edges.find? fun e => e.source == startMarker).bind fun e => e.targets.head? with
    | some id => some id
    | none => d.nodes.head?.map NodeDecl.id

/-- The id of the first interrupt, looking through maps. -/
def firstInterrupt? (d : Definition) : Option String :=
  d.nodes.findSome? fun n => NodeDecl.interruptIn? n.id n.kind

/-- All nodes, each followed by those that are nested in it. -/
def allNodes (d : Definition) : List NodeDecl :=
  d.nodes.flatMap fun n => NodeDecl.nest n.id n.options n.kind

end Definition

end WorkflowGraph
