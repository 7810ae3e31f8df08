import WorkflowGraph.Record

/-!
# JSON documents

A document is what a JSON text spells: the fields of an object stand in their order, also
several with one name. Not every document is a value. A number may be too large, a text may
hold half of a pair of characters, and lists and objects may be nested too deep. What is
looked for in a document is given by a form; the parts that no form asks for are passed over,
whether they are values or not.
-/

set_option autoImplicit false

namespace WorkflowGraph.Json

/-- What a JSON text spells. A scalar and the name of a field may be no value. -/
inductive Document where
  | scalar (value : Option Value)
  | list (items : List Document)
  | object (members : List (Option String × Document))

/-- What is looked for in a document: any value, a text, a natural number, a list, an object
with items of one form, or a record with the named fields alone. A record may also be a list
of its fields in their order, and no field of it may be there twice. -/
inductive Form where
  | any
  | text
  | number
  | list (item : Form)
  | dict (item : Form)
  | record (fields : List (String × Form))

namespace Form

/-- The names of the fields of a record. -/
def names : Form → List String
  | .record fields => fields.map Prod.fst
  | _ => []

/-- The form of a field among named forms. -/
def field? : List (String × Form) → String → Option Form
  | [], _ => none
  | (n, form) :: rest, name => if n = name then some form else field? rest name

/-- Whether a scalar can have the form. -/
def admitsScalar (v : Value) : Form → Bool
  | .text => (Record.text? v).isSome
  | .number => (Record.nat? v).isSome
  | _ => true

end Form

namespace Document

mutual

/-- The value in a document that has a form, at most `levels` of lists and objects deep. -/
def value? (levels : Nat) (form : Form) : Document → Option Value
  | .scalar v => v.filter form.admitsScalar
  | .list items =>
    match levels, form with
    | 0, _ => none
    | levels + 1, .any => (items? levels .any items).map .list
    | levels + 1, .list item => (items? levels item items).map .list
    | levels + 1, .record fields => (positions? levels fields items).map .list
    | _, _ => none
  | .object members =>
    match levels, form with
    | 0, _ => none
    | levels + 1, .any => (entries? levels .any [] members).map .object
    | levels + 1, .dict item => (entries? levels item [] members).map .object
    | levels + 1, .record fields => (fields? levels fields [] members).map .object
    | _, _ => none

/-- The values of a list of documents that have one form. -/
def items? (levels : Nat) (form : Form) : List Document → Option (List Value)
  | [] => some []
  | d :: rest =>
    match value? levels form d, items? levels form rest with
    | some v, some more => some (v :: more)
    | _, _ => none

/-- The values of a record that is written as a list. -/
def positions? (levels : Nat) (forms : List (String × Form)) : List Document → Option (List Value)
  | [] => some []
  | d :: rest =>
    match forms with
    | [] => none
    | (_, form) :: forms =>
      match value? levels form d, positions? levels forms rest with
      | some v, some more => some (v :: more)
      | _, _ => none

/-- The entries of an object, put over those in `done`. Of two with one name the later counts,
but both have to be there in their form. -/
def entries? (levels : Nat) (form : Form) (done : Fields) :
    List (Option String × Document) → Option Fields
  | [] => some done
  | (name, d) :: rest =>
    match name, value? levels form d with
    | some name, some v => entries? levels form (Dict.put done name v) rest
    | _, _ => none

/-- The fields of a record, put over those in `done`. Other fields are passed over, but their
names have to be texts. -/
def fields? (levels : Nat) (forms : List (String × Form)) (done : Fields) :
    List (Option String × Document) → Option Fields
  | [] => some done
  | (none, _) :: _ => none
  | (some name, d) :: rest =>
    match Form.field? forms name with
    | none => fields? levels forms done rest
    | some form =>
      if Dict.has done name then none
      else
        match value? levels form d with
        | none => none
        | some v => fields? levels forms (Dict.put done name v) rest

end

end Document

end WorkflowGraph.Json
