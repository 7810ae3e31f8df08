import WorkflowGraph.Value

/-!
# State shapes

The shape of a state says of every field that a graph writes or reads which type
it has, how writes to it are merged, and which nodes write it.
-/

set_option autoImplicit false

namespace WorkflowGraph

/-- How a write combines with the value that a field holds. -/
inductive MergeStrategy where
  | overwrite
  | append
  deriving DecidableEq, Repr, Inhabited

/-- The name of a strategy. -/
def MergeStrategy.name : MergeStrategy → String
  | .overwrite => "overwrite"
  | .append => "append"

/-- All strategies. -/
def MergeStrategy.all : List MergeStrategy := [.overwrite, .append]

/-- The strategy with a name; appending has a second name. -/
def MergeStrategy.ofName? : String → Option MergeStrategy
  | "overwrite" => some .overwrite
  | "append" => some .append
  | "append_ordered" => some .append
  | _ => none

/-- The types of fields. -/
inductive FieldType where
  | any
  | string
  | integer
  | number
  | boolean
  | list
  | object
  deriving DecidableEq, Repr, Inhabited

/-- The name of a field type. -/
def FieldType.name : FieldType → String
  | .any => "any"
  | .string => "string"
  | .integer => "integer"
  | .number => "number"
  | .boolean => "boolean"
  | .list => "list"
  | .object => "object"

/-- All field types. -/
def FieldType.all : List FieldType :=
  [.any, .string, .integer, .number, .boolean, .list, .object]

/-- The field type with a name. -/
def FieldType.ofName? : String → Option FieldType
  | "any" => some .any
  | "string" => some .string
  | "integer" => some .integer
  | "number" => some .number
  | "boolean" => some .boolean
  | "list" => some .list
  | "object" => some .object
  | _ => none

/-- The field type that a name in a JSON schema stands for. -/
def FieldType.ofSchemaName? (name : String) : Option FieldType :=
  if name = "array" then some .list else FieldType.ofName? name

/-- Where the entry of a field in a shape comes from. -/
inductive FieldOrigin where
  | output
  | implicit
  | input
  deriving DecidableEq, Repr, Inhabited

/-- The name of an origin. -/
def FieldOrigin.name : FieldOrigin → String
  | .output => "output"
  | .implicit => "implicit"
  | .input => "input"

/-- What a shape says of one field. -/
structure FieldSpec where
  type : FieldType
  merge : MergeStrategy
  writers : List String
  origin : FieldOrigin
  deriving DecidableEq, Repr, Inhabited

/-- What is known of a field, as a value. -/
def FieldSpec.toValue (spec : FieldSpec) : Value :=
  .record [("type", .text spec.type.name), ("merge", .text spec.merge.name),
    ("writers", Value.texts spec.writers), ("origin", .text spec.origin.name)]

/-- The fields of a state and what is known of them. -/
structure StateShape where
  fields : Dict FieldSpec
  deriving DecidableEq, Repr

namespace StateShape

/-- The shape without any field. -/
def empty : StateShape := ⟨[]⟩

/-- What the shape says of a field. -/
def get? (shape : StateShape) (field : String) : Option FieldSpec := Dict.get? shape.fields field

/-- How writes to a field are merged; a field that the shape does not know is overwritten. -/
def merge (shape : StateShape) (field : String) : MergeStrategy :=
  match shape.get? field with
  | some spec => spec.merge
  | none => .overwrite

/-- The shape as a value. -/
def toValue (shape : StateShape) : Value :=
  .record [("fields", .object (shape.fields.mapValues FieldSpec.toValue))]

end StateShape

end WorkflowGraph
