import WorkflowGraph.Condition.Eval
import WorkflowGraph.Definition.Basic
import WorkflowGraph.Error
import WorkflowGraph.Template

/-!
# Inference of state shapes

The shape of a definition's state follows from its declarations alone. Each node
declares the fields that it writes and those that it reads; conditions read
fields too. Writers come first, so that a read never decides how a field is
merged, and two writers that disagree on it are an error.
-/

set_option autoImplicit false

namespace WorkflowGraph

/-- One write or read of a field by a node. -/
structure FieldUse where
  field : String
  type : Option FieldType
  merge : MergeStrategy
  node : String
  origin : FieldOrigin
  deriving DecidableEq, Repr

namespace FieldUse

/-- A declared output. -/
def output (field : String) (type : Option FieldType) (merge : MergeStrategy) (node : String) :
    FieldUse := ⟨field, type, merge, node, .output⟩

/-- A write that a kind of node makes by itself. -/
def implicit (field : String) (type : FieldType) (merge : MergeStrategy) (node : String) :
    FieldUse := ⟨field, some type, merge, node, .implicit⟩

/-- A read of the field that a path starts at. -/
def input (path node : String) : FieldUse := ⟨Path.root path, none, .overwrite, node, .input⟩

/-- Whether the field is only read. -/
def isRead (u : FieldUse) : Bool := u.origin == .input

end FieldUse

namespace NodeDecl

/-- The reads of the paths of a mapping. -/
def inputReads (inputs : Dict String) (node : String) : List FieldUse :=
  inputs.values.map fun path => .input path node

/-- What a node writes and reads. Of the node inside a map only the reads count, and
not those of the item and its index, which exist only there. -/
def uses (messagesField : String) (id : String) (options : NodeOptions) :
    NodeKind → List FieldUse
  | .transform spec =>
    required ++ (options.output.toList.map fun f => .output f type merge id) ++
      inputReads spec.inputs id
  | .router spec =>
    required ++ [.implicit (options.output.getD (id ++ "_route")) .string .overwrite id] ++
      (spec.source.toList.map fun path => .input path id) ++ inputReads spec.inputs id
  | .agent spec =>
    required ++ (options.output.toList.map fun f => .output f type merge id) ++
      [.implicit (spec.messagesField.getD messagesField) .list .append id] ++
      inputReads spec.inputs id
  | .map spec innerOptions inner =>
    required ++ [.implicit spec.collect .list .append id, .input spec.source id] ++
      (uses messagesField (innerId id) innerOptions inner).filter fun u =>
        u.isRead && u.field != spec.item && u.field != spec.indexField
  | .interrupt spec =>
    required ++ [.output (options.output.getD (id ++ "_message")) type merge id,
        .implicit spec.resumeKey .any .overwrite id] ++
      (spec.message.toList.flatMap fun m =>
        (Template.placeholders m).map fun path => .input path id) ++
      inputReads spec.inputs id
  | .subgraph spec =>
    required ++ (spec.inputMapping.names.map fun path => .input path id) ++
      (spec.outputMapping.values ++ spec.interruptMapping.values).map fun f =>
        .output f none merge id
  | .passthrough spec =>
    required ++ (spec.set.names.map fun f => .output f none merge id) ++
      (spec.copy.flatMap fun p => [.output p.1 none merge id, .input p.2 id]) ++
      spec.increment.names.map fun f => .output f (some .number) merge id
where
  /-- The reads of the required fields. -/
  required : List FieldUse := options.requires.map fun path => .input path id
  /-- How the declared output is merged. -/
  merge : MergeStrategy := options.merge.getD .overwrite
  /-- The declared type of the output. -/
  type : Option FieldType := declaredType? ⟨id, .passthrough ⟨[], [], []⟩, options⟩

end NodeDecl

namespace Definition

/-- All writes and reads of a definition: those of its nodes and then those of its conditions. -/
def uses (d : Definition) : List FieldUse :=
  (d.nodes.flatMap fun n => NodeDecl.uses d.defaults.messagesField n.id n.options n.kind) ++
  d.edges.flatMap fun e =>
    e.condition.toList.flatMap fun c => (Condition.pathsOf c).map fun path => .input path e.source

end Definition

namespace FieldSpec

/-- The type of a field after a further writer. A field whose type is not known takes
the writer's; two different types leave it unknown. -/
def joinType (current : FieldType) : Option FieldType → FieldType
  | none => current
  | some t => if current = .any then t else if current = t then current else .any

/-- The entry of a field after a further writer with the same strategy. -/
def join (spec : FieldSpec) (u : FieldUse) : FieldSpec :=
  { spec with
    type := joinType spec.type u.type
    writers := if spec.writers.contains u.node then spec.writers else spec.writers ++ [u.node] }

/-- The entry that the first use of a field makes. -/
def ofUse (u : FieldUse) : FieldSpec :=
  ⟨u.type.getD .any, u.merge, if u.isRead then [] else [u.node], u.origin⟩

end FieldSpec

namespace StateShape

/-- A shape in the making, and the disagreements found so far. -/
structure Draft where
  fields : Dict FieldSpec
  errors : List DefinitionError

/-- Take one use into account. -/
def Draft.add (draft : Draft) (u : FieldUse) : Draft :=
  match Dict.get? draft.fields u.field with
  | none => { draft with fields := Dict.put draft.fields u.field (.ofUse u) }
  | some spec =>
    if u.isRead then draft
    else if spec.merge ≠ u.merge then
      { draft with
        errors := draft.errors ++
          [.conflictingMerge u.field spec.merge.name (spec.writers.headD "") u.merge.name u.node] }
    else { draft with fields := Dict.put draft.fields u.field (spec.join u) }

/-- The shape that writes and reads lead to; writes are looked at first. -/
def ofUses (uses : List FieldUse) : Except (List DefinitionError) StateShape :=
  let ordered := uses.filter (fun u => !u.isRead) ++ uses.filter FieldUse.isRead
  let draft := ordered.foldl Draft.add ⟨[], []⟩
  if draft.errors.isEmpty then .ok ⟨draft.fields⟩ else .error draft.errors

/-- The shape of a definition's state. -/
def infer (d : Definition) : Except (List DefinitionError) StateShape := ofUses d.uses

end StateShape

end WorkflowGraph
