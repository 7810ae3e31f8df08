import WorkflowGraph.Definition.Basic
import WorkflowGraph.Error
import WorkflowGraph.Yaml.Document
import WorkflowGraph.Yaml.Field
import WorkflowGraph.Yaml.Record

/-!
# Reading definitions

A definition is read from a YAML document, or from a value that has been decoded
already. Reading is pure and reports every error it finds, in the order of the
sections; what a part refers to is not looked at here.
-/

set_option autoImplicit false

namespace WorkflowGraph

open Yaml

namespace Number

/-- Read a finite number. -/
def ofNode? (n : Node) : Option Number :=
  match n.content with
  | .int k => some (.int k)
  | .float x => if x.isFinite then some (.float x) else none
  | _ => none

end Number

namespace NodeOptions

/-- The names of the options. -/
def fieldNames : List String :=
  ["description", "output", "output_type", "output_schema", "merge", "on_error", "max_retries",
    "fallback", "backend", "requires", "skip_if_exists", "timeout"]

/-- Read the options of a node from the entries of its body. -/
def ofEntries? (es : Entries) : Option NodeOptions := do
  let description ← es.fieldOptional? "description" Node.text?
  let output ← es.fieldOptional? "output" Node.text?
  let outputType ← es.fieldOptional? "output_type" (Node.choice? FieldType.ofName? FieldType.all)
  let outputSchema ← es.fieldOptional? "output_schema" Node.toValue?
  let merge ← es.fieldOptional? "merge" (Node.choice? MergeStrategy.ofName? MergeStrategy.all)
  let onError ← es.fieldOr? "on_error" (Node.choice? ErrorPolicy.ofName? ErrorPolicy.all) .fail
  let maxRetries ← es.fieldOptional? "max_retries" Node.nat?
  let fallback ← es.fieldOptional? "fallback" Node.toValue?
  let backend ← es.fieldOptional? "backend" Node.toValue?
  let requires ← es.fieldOr? "requires" (Node.list? Node.text?) []
  let skipIfExists ← es.fieldOptional? "skip_if_exists" Node.flag?
  let timeout ← es.fieldOptional? "timeout" Node.duration?
  some ⟨description, output, outputType, outputSchema, merge, onError, maxRetries, fallback,
    backend, requires, skipIfExists, timeout⟩

end NodeOptions

namespace NodeKind

/-- The names of the fields of a kind, in their order. -/
def fieldNames : String → List String
  | "transform" => ["task", "tool", "inputs", "args"]
  | "router" => ["task", "from", "inputs", "routes", "default_route", "classification_key"]
  | "agent" => ["task", "tools", "max_iterations", "messages_field", "inputs"]
  | "map" => ["over", "as", "node", "collect", "max_concurrency"]
  | "interrupt" => ["message", "task", "inputs", "resume_key"]
  | "subgraph" =>
    ["graph", "definition", "input_mapping", "output_mapping", "interrupt_output_mapping"]
  | "passthrough" => ["set", "copy", "increment"]
  | _ => []

/-- Read a mapping from texts to texts that may be missing. -/
def texts? (es : Entries) (key : String) : Option (Dict String) :=
  es.fieldOr? key (Node.dict? Node.text?) []

/-- Read a transform. -/
def transform? (es : Entries) : Option NodeKind := do
  let task ← es.fieldOptional? "task" Node.text?
  let tool ← es.fieldOptional? "tool" Node.text?
  let inputs ← texts? es "inputs"
  let args ← es.fieldOr? "args" (Node.dict? Node.toValue?) []
  some (.transform ⟨task, tool, inputs, args⟩)

/-- Read a router. -/
def router? (es : Entries) : Option NodeKind := do
  let task ← es.fieldOptional? "task" Node.text?
  let source ← es.fieldOptional? "from" Node.text?
  let inputs ← texts? es "inputs"
  let routes ← texts? es "routes"
  let defaultRoute ← es.fieldOptional? "default_route" Node.text?
  let classificationKey ← es.fieldOr? "classification_key" Node.text? "route"
  some (.router ⟨task, source, inputs, routes, defaultRoute, classificationKey⟩)

/-- Read an agent. -/
def agent? (es : Entries) : Option NodeKind := do
  let task ← es.field? "task" Node.text?
  let tools ← es.fieldOr? "tools" (Node.list? Node.text?) []
  let maxIterations ← es.fieldOptional? "max_iterations" Node.nat?
  let messagesField ← es.fieldOptional? "messages_field" Node.text?
  let inputs ← texts? es "inputs"
  some (.agent ⟨task, tools, maxIterations, messagesField, inputs⟩)

/-- Read the part of a map that is not its inner node. -/
def mapSpec? (es : Entries) : Option MapSpec := do
  let source ← es.field? "over" Node.text?
  let item ← es.field? "as" Node.text?
  let collect ← es.field? "collect" Node.text?
  let maxConcurrency ← es.fieldOptional? "max_concurrency" Node.nat?
  some ⟨source, item, collect, maxConcurrency⟩

/-- Read an interrupt. -/
def interrupt? (es : Entries) : Option NodeKind := do
  let message ← es.fieldOptional? "message" Node.text?
  let task ← es.fieldOptional? "task" Node.text?
  let inputs ← texts? es "inputs"
  let resumeKey ← es.fieldOr? "resume_key" Node.text? "user_input"
  some (.interrupt ⟨message, task, inputs, resumeKey⟩)

/-- Read a subgraph. -/
def subgraph? (es : Entries) : Option NodeKind := do
  let graph ← es.fieldOptional? "graph" Node.text?
  let definition ← es.fieldOptional? "definition" Node.toValue?
  let inputMapping ← texts? es "input_mapping"
  let outputMapping ← texts? es "output_mapping"
  let interruptMapping ← texts? es "interrupt_output_mapping"
  some (.subgraph ⟨graph, definition, inputMapping, outputMapping, interruptMapping⟩)

/-- Read a passthrough. -/
def passthrough? (es : Entries) : Option NodeKind := do
  let set ← es.fieldOr? "set" (Node.dict? Node.toValue?) []
  let copy ← texts? es "copy"
  let increment ← es.fieldOr? "increment" (Node.dict? Number.ofNode?) []
  some (.passthrough ⟨set, copy, increment⟩)

/-- The kind with a name, unless it is a map. -/
def leaf? (kind : String) (es : Entries) : Option NodeKind :=
  match kind with
  | "transform" => transform? es
  | "router" => router? es
  | "agent" => agent? es
  | "interrupt" => interrupt? es
  | "subgraph" => subgraph? es
  | "passthrough" => passthrough? es
  | _ => none

/-- The name of a kind, given as a text or as the place of the kind. -/
def placedName? : Node → Option String
  | .text name => some name
  | .int i => if 0 ≤ i then names[i.toNat]? else none
  | _ => none

/-- Whether the entries of a node's body hold no tag and give no field of its kind and no
option twice. -/
def isSound (kind : String) (es : Entries) : Bool :=
  es.untagged && es.once ("type" :: (fieldNames kind ++ NodeOptions.fieldNames))

/-- The name of the kind and the entries of the body of a node. -/
def entriesOf? (body : Node) : Option (String × Entries) := do
  let es ← body.record? []
  let kind ← es.field? "type" Node.text?
  if isSound kind es then some (kind, es) else none

/-- The name of the kind and the entries of the body of the node inside a map, where the
place of a kind and the places of its fields may stand for their names. -/
def innerEntriesOf? : Node → Option (String × Entries)
  | .mapping entries => do
    let kind ← (Node.lookup? entries "type").bind placedName?
    let es ← Entries.named? (Node.placeKey? (fieldNames kind)) entries
    if isSound kind es then some (kind, es) else none
  | _ => none

theorem sizeOf_lt_of_innerEntriesOf? {body : Node} {kind : String} {es : Entries}
    (h : innerEntriesOf? body = some (kind, es)) (name : String) (n : Node)
    (hn : es.get? name = some n) : sizeOf n < sizeOf body := by
  obtain ⟨e, he, rfl⟩ := Entries.mem_of_get? es name n hn
  unfold innerEntriesOf? at h
  split at h
  · next entries =>
    simp only [Option.bind_eq_bind, Option.bind_eq_some_iff] at h
    obtain ⟨kind', _, es', hes, hif⟩ := h
    split at hif
    · simp only [Option.some.injEq, Prod.mk.injEq] at hif
      obtain ⟨rfl, rfl⟩ := hif
      have := Entries.sizeOf_lt_of_named? _ _ _ hes e he
      simp only [Node.mapping.sizeOf_spec]
      omega
    · simp at hif
  · simp at h

/-- Read the node inside a map, which no part with a tag may stand in. -/
def ofInner? (body : Node) : Option (NodeKind × NodeOptions) :=
  match h : innerEntriesOf? body with
  | none => none
  | some (kind, es) =>
    if kind = "map" then
      match hn : es.get? "node" with
      | none => none
      | some inner =>
        have := sizeOf_lt_of_innerEntriesOf? h "node" inner hn
        match ofInner? inner, mapSpec? es, NodeOptions.ofEntries? es with
        | some (innerKind, innerOptions), some spec, some options =>
          some (.map spec innerOptions innerKind, options)
        | _, _, _ => none
    else
      match leaf? kind es, NodeOptions.ofEntries? es with
      | some read, some options => some (read, options)
      | _, _ => none
termination_by sizeOf body

/-- Read the kind of a node from the entries of its body. -/
def ofEntries? (kind : String) (es : Entries) : Option NodeKind :=
  if kind = "map" then do
    let (innerKind, innerOptions) ← es.field? "node" ofInner?
    let spec ← mapSpec? es
    some (.map spec innerOptions innerKind)
  else leaf? kind es

/-- Read a kind on its own: from a record, or from a list of its name and its fields in
their order. -/
def ofNode? (n : Node) : Option NodeKind :=
  match n with
  | .sequence (.text kind :: items) =>
    (Entries.inOrder? (fieldNames kind) items).bind (ofEntries? kind)
  | _ => (entriesOf? n).bind fun p => ofEntries? p.1 p.2

end NodeKind

namespace NodeDecl

/-- Read the kind and the options of a node from its body. -/
def parts? (body : Node) : Option (NodeKind × NodeOptions) := do
  let (kind, es) ← NodeKind.entriesOf? body
  let read ← NodeKind.ofEntries? kind es
  let options ← NodeOptions.ofEntries? es
  some (read, options)

/-- Why the body of a node is refused before its own fields are read: by its type,
or because the node inside a map is refused. The error names the node at fault. -/
def typeFault? (id : String) (body : Node) : Option DefinitionError :=
  match body.get? "type" with
  | none => some (.invalidNode id .missingType)
  | some (.text name) =>
    if !NodeKind.names.contains name then some (.unknownNodeType id name)
    else if name = "map" then
      match h : body.get? "node" with
      | none => none
      | some inner =>
        have := Node.sizeOf_get?_lt _ _ _ h
        match typeFault? (innerId id) inner with
        | some e => some e
        | none =>
          if (parts? inner).isSome then none
          else some (.invalidNode (innerId id) .unreadable)
    else none
  | some _ => some (.invalidNode id .typeNotText)
termination_by sizeOf body

/-- Read a node. -/
def ofBody (id : String) (body : Node) : Except DefinitionError NodeDecl :=
  match typeFault? id body with
  | some e => .error e
  | none =>
    match parts? body with
    | some (kind, options) => .ok ⟨id, kind, options⟩
    | none => .error (.invalidNode id .unreadable)

end NodeDecl

namespace EdgeTargets

/-- Read the targets of an edge. -/
def ofNode? : Node → Option EdgeTargets
  | .text id => some (.one id)
  | .sequence items =>
    if Node.untaggedItems items then (Node.all? Node.text? items).map .many else none
  | _ => none

end EdgeTargets

namespace EdgeDecl

/-- Read an edge. -/
def ofNode? (n : Node) : Option EdgeDecl := do
  let es ← n.record? ["from", "to", "condition"]
  let source ← es.field? "from" Node.text?
  let destination ← es.field? "to" EdgeTargets.ofNode?
  let condition ← es.fieldOptional? "condition" Node.text?
  some ⟨source, destination, condition⟩

end EdgeDecl

namespace ToolDecl

/-- Read a tool. -/
def ofNode? (n : Node) : Option ToolDecl := do
  let es ← n.record? ["binding", "description", "parameters"]
  let binding ← es.fieldOptional? "binding" Node.text?
  let description ← es.fieldOptional? "description" Node.text?
  let parameters ← es.fieldOptional? "parameters" Node.toValue?
  some ⟨binding, description, parameters⟩

end ToolDecl

namespace Defaults

/-- The defaults and what they hold. Durations are written as texts. -/
def fields : List Yaml.Field :=
  [⟨"max_retries", .natural, false⟩, ⟨"loop_limit", .natural, true⟩,
    ⟨"skip_if_exists", .flag, false⟩, ⟨"max_steps", .natural, false⟩,
    ⟨"parallelism", .natural, true⟩, ⟨"checkpoint_interval", .natural, false⟩,
    ⟨"checkpoint_retention", .natural, true⟩, ⟨"node_timeout", .text, true⟩,
    ⟨"workflow_timeout", .text, true⟩, ⟨"backoff_base", .text, false⟩,
    ⟨"backoff_max", .text, false⟩, ⟨"backend", .value, true⟩,
    ⟨"messages_field", .text, false⟩, ⟨"max_iterations", .natural, false⟩]

/-- The names of the defaults. -/
def fieldNames : List String := fields.map Yaml.Field.name

/-- Read the defaults; what is not set keeps its standard value. -/
def ofNode? (n : Node) : Option Defaults := do
  let es ← n.record? fieldNames
  let d := standard
  let maxRetries ← es.fieldOr? "max_retries" Node.nat? d.maxRetries
  let loopLimit ← es.fieldOptional? "loop_limit" Node.nat?
  let skipIfExists ← es.fieldOr? "skip_if_exists" Node.flag? d.skipIfExists
  let maxSteps ← es.fieldOr? "max_steps" Node.nat? d.maxSteps
  let parallelism ← es.fieldOptional? "parallelism" Node.nat?
  let checkpointInterval ← es.fieldOr? "checkpoint_interval" Node.nat? d.checkpointInterval
  let checkpointRetention ← es.fieldOptional? "checkpoint_retention" Node.nat?
  let nodeTimeout ← es.fieldOptional? "node_timeout" Node.duration?
  let workflowTimeout ← es.fieldOptional? "workflow_timeout" Node.duration?
  let backoffBase ← es.fieldOr? "backoff_base" Node.duration? d.backoffBase
  let backoffMax ← es.fieldOr? "backoff_max" Node.duration? d.backoffMax
  let backend ← es.fieldOptional? "backend" Node.toValue?
  let messagesField ← es.fieldOr? "messages_field" Node.text? d.messagesField
  let maxIterations ← es.fieldOr? "max_iterations" Node.nat? d.maxIterations
  some ⟨maxRetries, loopLimit, skipIfExists, maxSteps, parallelism, checkpointInterval,
    checkpointRetention, nodeTimeout, workflowTimeout, backoffBase, backoffMax, backend,
    messagesField, maxIterations⟩

/-- Read a text that holds nothing but defaults. -/
def ofText? (text : String) : Option Defaults := (Yaml.readRecord? fields text).bind ofNode?

end Defaults

namespace StoreConfig

/-- The settings of a store with a directory or a file, in their order. -/
def fieldNames : List String := ["path", "compression"]

/-- The path of a store and whether it compresses. -/
def settings? (es : Entries) : Option (String × Bool) := do
  let path ← es.field? "path" Node.text?
  let compression ← es.fieldOr? "compression" Node.flag? false
  if es.once fieldNames then some (path, compression) else none

/-- The store of a type. Only a store that has settings looks at what is given for them. -/
def ofType? (type : String) (settings : Option Entries) : Option StoreConfig :=
  match type with
  | "memory" => some .memory
  | "file" => (settings.bind settings?).map fun s => .file s.1 s.2
  | "sqlite" => (settings.bind settings?).map fun s => .database s.1 s.2
  | _ => none

/-- Whether only the type has a tag among the entries of a store. -/
def isSound (entries : List (Node × Node)) : Bool :=
  entries.all fun e =>
    match e.1 with
    | .text "type" => true
    | k => k.untagged && e.2.untagged

/-- Read where checkpoints are kept: a record with a type, in which the places of the
settings may stand for their names, or a list that starts with the type. -/
def ofNode? : Node → Option StoreConfig
  | .mapping entries => do
    let type ← (Node.lookup? entries "type").bind Node.text?
    if isSound entries then ofType? type (Entries.named? (Node.placeKey? fieldNames) entries)
    else none
  | .sequence (first :: items) => do
    let type ← first.text?
    if !Node.untaggedItems items ∨ (type = "memory" ∧ items ≠ []) then none
    else ofType? type (Entries.inOrder? fieldNames items)
  | _ => none

end StoreConfig

namespace Definition

/-- What has been read, and the errors that were found in it. -/
abbrev Checked (α : Type) : Type := List DefinitionError × α

/-- Read the name. -/
def readName (root : List (Node × Node)) : Checked String :=
  match Node.lookup? root "name" with
  | some (.text name) =>
    if Text.isAllBlank name then ([.invalidSection "name" .blankName], "") else ([], name)
  | some _ => ([.invalidSection "name" .blankName], "")
  | none => ([.missingKey "name"], "")

/-- Read the version, which must be one or start with one and a point. -/
def readVersion (root : List (Node × Node)) : Checked (Option String) :=
  match Node.lookup? root "version" with
  | none => ([], none)
  | some n =>
    match n.name? with
    | none => ([.invalidSection "version" .notScalar], none)
    | some v =>
      if v == "1" || v.startsWith "1." then ([], some v) else ([.unsupportedVersion v], none)

/-- Read a section that may be missing or null. -/
def readSection {α : Type} (root : List (Node × Node)) (key : String) (read : Node → Option α)
    (default : α) : Checked α :=
  match Node.lookup? root key with
  | none => ([], default)
  | some n =>
    if n.isNull then ([], default)
    else
      match read n with
      | some a => ([], a)
      | none => ([.invalidSection key .unreadable], default)

/-- Read the nodes in their order. -/
def readNodes : List (Node × Node) → Checked (List NodeDecl)
  | [] => ([], [])
  | (key, body) :: rest =>
    let (errors, nodes) := readNodes rest
    match key.name? with
    | none => (.invalidSection "nodes" .idNotText :: errors, nodes)
    | some id =>
      if isMarker id then (.reservedNodeId id :: errors, nodes)
      else
        match NodeDecl.ofBody id body with
        | .ok node => (errors, node :: nodes)
        | .error e => (e :: errors, nodes)

/-- Read the section of the nodes. -/
def readNodeSection (root : List (Node × Node)) : Checked (List NodeDecl) :=
  match Node.lookup? root "nodes" with
  | some (.mapping (first :: rest)) => readNodes (first :: rest)
  | some _ => ([.invalidSection "nodes" .emptyMapping], [])
  | none => ([.missingKey "nodes"], [])

/-- Read the edges, counting from an index. -/
def readEdges : Nat → List Node → Checked (List EdgeDecl)
  | _, [] => ([], [])
  | index, n :: rest =>
    let (errors, edges) := readEdges (index + 1) rest
    match EdgeDecl.ofNode? n with
    | some e => (errors, e :: edges)
    | none =>
      (.invalidEdge index (((n.get? "from").bind Node.name?).getD "?") .unreadable :: errors, edges)

/-- Read the section of the edges. -/
def readEdgeSection (root : List (Node × Node)) : Checked (List EdgeDecl) :=
  match Node.lookup? root "edges" with
  | some (.sequence items) => readEdges 0 items
  | some _ => ([.invalidSection "edges" .notList], [])
  | none => ([.missingKey "edges"], [])

/-- Read a definition from the root of a document. -/
def ofNode : Node → Except (List DefinitionError) Definition
  | .mapping root =>
    let (e₁, name) := readName root
    let (e₂, version) := readVersion root
    let (e₃, description) := readSection root "description" (Node.optional? Node.text?) none
    let (e₄, entry) := readSection root "entry" (Node.optional? Node.text?) none
    let (e₅, defaults) := readSection root "defaults" Defaults.ofNode? .standard
    let (e₆, tools) := readSection root "tools" (Node.dict? ToolDecl.ofNode?) []
    let (e₇, loopLimits) := readSection root "loop_limits" (Node.dict? Node.nat?) []
    let (e₈, checkpoint) :=
      readSection root "checkpoint" (fun n => (StoreConfig.ofNode? n).map some) none
    let (e₉, nodes) := readNodeSection root
    let (e₁₀, edges) := readEdgeSection root
    let errors := e₁ ++ e₂ ++ e₃ ++ e₄ ++ e₅ ++ e₆ ++ e₇ ++ e₈ ++ e₉ ++ e₁₀
    if errors.isEmpty then
      .ok ⟨version, name, description, entry, defaults, tools, nodes, edges, loopLimits, checkpoint⟩
    else .error errors
  | _ => .error [.parse .notMapping]

/-- Read a definition from its text. -/
def parse (text : String) : Except (List DefinitionError) Definition :=
  match Yaml.read? text with
  | some root => ofNode root
  | none => .error [.parse .unreadable]

/-- Read a definition from a value. -/
def ofValue (v : Value) : Except (List DefinitionError) Definition := ofNode (Node.ofValue v)

end Definition

end WorkflowGraph
