import WorkflowGraph.Yaml.Document

/-!
# Records with known fields

`Yaml.readRecord?` reads a text that holds one record whose fields are known. What stands
in a field is read by the kind of content that the field is to have and not by what it
looks like: any scalar is a text there. Fields that are not known are passed over, whatever
they hold.
-/

set_option autoImplicit false

namespace WorkflowGraph.Yaml

/-- What a field is to hold. -/
inductive FieldKind where
  | natural
  | flag
  | text
  | value
  deriving DecidableEq, Repr

/-- A known field. One that is optional may hold null. -/
structure Field where
  name : String
  kind : FieldKind
  optional : Bool
  deriving Repr

/-- Whether a draft stands for no content. A tag that asks for null allows nothing else. -/
def Draft.isMissing? : Draft → Option Bool
  | .scalar none text .plain => some (Scalar.isNull text)
  | .scalar (some tag) text .plain =>
    if tag ≠ .ofCore "null" then some false
    else if Scalar.isNull text ∧ text ≠ "" then some true
    else none
  | _ => some false

/-- The text of a scalar that may be a number or a boolean. It stands in the open, or is a
block under the tag of its type. -/
def Draft.openText? (type : String) : Draft → Option String
  | .scalar _ text .plain => some text
  | .scalar (some tag) text .literal => if tag = .ofCore type then some text else none
  | _ => none

namespace Document

/-- The node of a draft that is to be of a kind. -/
def ofKind? (doc : Document) (kind : FieldKind) (d : Draft) : Resolving Node :=
  match kind with
  | .natural => do
    let n : Nat ← (d.openText? "int").bind Scalar.natural?
    return .int n
  | .flag => do
    let b ← (d.openText? "bool").bind Scalar.bool?
    return .bool b
  | .text => Node.text <$> doc.text? d
  | .value => doc.node? .texts (maxDepth - 1) d

/-- The node of what stands in a field. -/
def field? (doc : Document) (field : Field) (d : Draft) : Resolving Node := do
  let d ← doc.resolve d
  if field.optional then
    if ← d.isMissing? then return .null
  doc.ofKind? field.kind d

/-- The known fields of a record, in the order in which they are written. -/
def fields? (doc : Document) (fields : List Field) :
    List (Draft × Draft) → Resolving (List (Node × Node))
  | [] => pure []
  | (k, d) :: rest => do
    let name ← doc.text? k
    match fields.find? fun field => field.name == name with
    | none => doc.fields? fields rest
    | some field =>
      let n ← doc.field? field d
      return (.text name, n) :: (← doc.fields? fields rest)

/-- The known fields of a document that is a record. A document without content is a record
without fields. -/
def record? (doc : Document) (fields : List Field) : Option Node :=
  match doc.root with
  | none => some (.mapping [])
  | some (.scalar _ "" .plain) => some (.mapping [])
  | some (.mapping _ entries) => Node.mapping <$> (doc.fields? fields entries).run' 0
  | _ => none

end Document

/-- Read a text that holds one record with known fields. -/
def readRecord? (fields : List Field) (text : String) : Option Node := do
  let tokens ← scan? text
  (← Document.ofTokens? tokens.length tokens).record? fields

end WorkflowGraph.Yaml
