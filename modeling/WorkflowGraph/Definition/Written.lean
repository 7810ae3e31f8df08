import WorkflowGraph.Definition.Basic

/-!
# Written definitions

The value that describes a definition. Options that are not set are left out;
the defaults are written in full.
-/

set_option autoImplicit false

namespace WorkflowGraph

/-- A field that is left out where it is not set. -/
def optionalField {α : Type} (name : String) (write : α → Value) : Option α → List (String × Value)
  | none => []
  | some a => [(name, write a)]

/-- A mapping from texts to texts as a value. -/
def textsValue (d : Dict String) : Value := .object (d.mapValues .text)

/-- A mapping that is left out where it is empty. -/
def nonemptyField {α : Type} (name : String) (write : α → Value) (d : Dict α) :
    List (String × Value) :=
  if d.isEmpty then [] else [(name, .object (d.mapValues write))]

/-- A list of texts that is left out where it is empty. -/
def nonemptyTexts (name : String) (items : List String) : List (String × Value) :=
  if items.isEmpty then [] else [(name, Value.texts items)]

namespace NodeOptions

/-- The fields of the options of a node. -/
def written (o : NodeOptions) : List (String × Value) :=
  optionalField "description" .text o.description ++
  optionalField "output" .text o.output ++
  optionalField "output_type" (fun t => .text (FieldType.name t)) o.outputType ++
  optionalField "output_schema" id o.outputSchema ++
  optionalField "merge" (fun m => .text (MergeStrategy.name m)) o.merge ++
  [("on_error", .text o.onError.name)] ++
  optionalField "max_retries" Value.ofNat o.maxRetries ++
  optionalField "fallback" id o.fallback ++
  optionalField "backend" id o.backend ++
  nonemptyTexts "requires" o.requires ++
  optionalField "skip_if_exists" .bool o.skipIfExists ++
  optionalField "timeout" Duration.value o.timeout

end NodeOptions

namespace NodeKind

/-- The fields of the kind of a node. -/
def written : NodeKind → List (String × Value)
  | .transform s =>
    [("type", .text "transform")] ++ optionalField "task" .text s.task ++
      optionalField "tool" .text s.tool ++ nonemptyField "inputs" .text s.inputs ++
      nonemptyField "args" id s.args
  | .router s =>
    [("type", .text "router"), ("routes", textsValue s.routes),
        ("classification_key", .text s.classificationKey)] ++
      optionalField "task" .text s.task ++ optionalField "from" .text s.source ++
      nonemptyField "inputs" .text s.inputs ++ optionalField "default_route" .text s.defaultRoute
  | .agent s =>
    [("type", .text "agent"), ("task", .text s.task)] ++ nonemptyTexts "tools" s.tools ++
      optionalField "max_iterations" Value.ofNat s.maxIterations ++
      optionalField "messages_field" .text s.messagesField ++ nonemptyField "inputs" .text s.inputs
  | .map s options inner =>
    [("type", .text "map"), ("over", .text s.source), ("as", .text s.item),
        ("collect", .text s.collect),
        ("node", .record (inner.written ++ options.written))] ++
      optionalField "max_concurrency" Value.ofNat s.maxConcurrency
  | .interrupt s =>
    [("type", .text "interrupt"), ("resume_key", .text s.resumeKey)] ++
      optionalField "message" .text s.message ++ optionalField "task" .text s.task ++
      nonemptyField "inputs" .text s.inputs
  | .subgraph s =>
    [("type", .text "subgraph"), ("input_mapping", textsValue s.inputMapping),
        ("output_mapping", textsValue s.outputMapping),
        ("interrupt_output_mapping", textsValue s.interruptMapping)] ++
      optionalField "graph" .text s.graph ++ optionalField "definition" id s.definition
  | .passthrough s =>
    [("type", .text "passthrough")] ++ nonemptyField "set" id s.set ++
      nonemptyField "copy" .text s.copy ++ nonemptyField "increment" Number.value s.increment

end NodeKind

/-- The body of a node, without its id. -/
def NodeDecl.written (n : NodeDecl) : Value :=
  .record (n.kind.written ++ n.options.written)

/-- The value of an edge. -/
def EdgeDecl.written (e : EdgeDecl) : Value :=
  .record <|
    [("from", .text e.source),
      ("to", match e.destination with
        | .one id => .text id
        | .many ids => Value.texts ids)] ++
    optionalField "condition" .text e.condition

/-- The value of a tool. -/
def ToolDecl.written (t : ToolDecl) : Value :=
  .record <|
    optionalField "binding" .text t.binding ++ optionalField "description" .text t.description ++
    optionalField "parameters" id t.parameters

/-- The value of the defaults. -/
def Defaults.written (d : Defaults) : Value :=
  .record
    [("max_retries", .ofNat d.maxRetries), ("loop_limit", .orNull Value.ofNat d.loopLimit),
      ("skip_if_exists", .bool d.skipIfExists), ("max_steps", .ofNat d.maxSteps),
      ("parallelism", .orNull Value.ofNat d.parallelism),
      ("checkpoint_interval", .ofNat d.checkpointInterval),
      ("checkpoint_retention", .orNull Value.ofNat d.checkpointRetention),
      ("node_timeout", .orNull Duration.value d.nodeTimeout),
      ("workflow_timeout", .orNull Duration.value d.workflowTimeout),
      ("backoff_base", d.backoffBase.value), ("backoff_max", d.backoffMax.value),
      ("backend", Value.ofOption d.backend), ("messages_field", .text d.messagesField),
      ("max_iterations", .ofNat d.maxIterations)]

/-- The value that says where checkpoints are kept. -/
def StoreConfig.written : StoreConfig → Value
  | .memory => .object [("type", .text "memory")]
  | .file path compression =>
    .object [("compression", .bool compression), ("path", .text path), ("type", .text "file")]
  | .database path compression =>
    .object [("compression", .bool compression), ("path", .text path), ("type", .text "sqlite")]

/-- The value of a definition. -/
def Definition.written (d : Definition) : Value :=
  .record <|
    optionalField "version" .text d.version ++ [("name", .text d.name)] ++
    optionalField "description" .text d.description ++ optionalField "entry" .text d.entry ++
    [("defaults", d.defaults.written), ("tools", .object (d.tools.mapValues ToolDecl.written)),
      ("nodes", .list (d.nodes.map NodeDecl.written)),
      ("edges", .list (d.edges.map EdgeDecl.written)),
      ("loop_limits", .object (d.loopLimits.mapValues Value.ofNat))] ++
    optionalField "checkpoint" StoreConfig.written d.checkpoint

end WorkflowGraph
