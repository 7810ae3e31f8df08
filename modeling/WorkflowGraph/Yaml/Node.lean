import WorkflowGraph.Decimal.Layout
import WorkflowGraph.Value

/-!
# Nodes of YAML documents

The content of a YAML document: scalars that have been given a type, sequences,
and mappings in written order, whose keys may be any node. A node under a tag of
the document's own keeps that tag.
-/

set_option autoImplicit false

namespace WorkflowGraph.Yaml

/-- A node of a YAML document. -/
inductive Node where
  | null
  | bool (b : Bool)
  | int (n : Int)
  | float (x : Float)
  | text (s : String)
  | sequence (items : List Node)
  | mapping (entries : List (Node × Node))
  | tagged (tag : String) (content : Node)
  deriving Inhabited

namespace Node

/-- The node below all tags. -/
def content : Node → Node
  | .tagged _ n => n.content
  | n => n

/-- Whether a node is null, under whatever tag. -/
def isNull (n : Node) : Bool :=
  match n.content with
  | .null => true
  | _ => false

/-- The entry of a mapping whose key is a text. -/
def lookup? (entries : List (Node × Node)) (key : String) : Option Node :=
  match entries with
  | [] => none
  | (.text k, v) :: rest => if k = key then some v else lookup? rest key
  | _ :: rest => lookup? rest key

/-- The entry of a node that is a mapping, under whatever tag. -/
def get? (n : Node) (key : String) : Option Node :=
  match n.content with
  | .mapping entries => lookup? entries key
  | _ => none

theorem sizeOf_content_le : (n : Node) → sizeOf n.content ≤ sizeOf n
  | .tagged _ n => by
    have := sizeOf_content_le n
    simp only [content, tagged.sizeOf_spec]
    omega
  | .null | .bool _ | .int _ | .float _ | .text _ | .sequence _ | .mapping _ => by simp [content]

theorem sizeOf_lookup?_lt (entries : List (Node × Node)) (key : String) (m : Node)
    (h : lookup? entries key = some m) : sizeOf m < sizeOf entries := by
  fun_induction lookup? entries key with
  | case1 => simp at h
  | case2 v rest =>
    obtain rfl := Option.some.inj h
    simp only [List.cons.sizeOf_spec, Prod.mk.sizeOf_spec]
    omega
  | case3 k v rest _ ih =>
    have := ih h
    simp only [List.cons.sizeOf_spec]
    omega
  | case4 p rest _ ih =>
    have := ih h
    simp only [List.cons.sizeOf_spec]
    omega

/-- An entry of a mapping is smaller than the mapping. -/
theorem sizeOf_get?_lt (n : Node) (key : String) (m : Node) (h : n.get? key = some m) :
    sizeOf m < sizeOf n := by
  have hle := sizeOf_content_le n
  unfold get? at h
  split at h
  · next entries hc =>
    have := sizeOf_lookup?_lt entries key m h
    rw [hc] at hle
    simp only [mapping.sizeOf_spec] at hle
    omega
  · simp at h

/-- The name that a scalar stands for: a text, a number as it is written, or a boolean. -/
def name? : Node → Option String
  | .text s => some s
  | .int n => some (toString n)
  | .float x =>
    some (if x.isNaN then ".nan" else if x.isInf then (if x < 0.0 then "-.inf" else ".inf")
      else NumberLayout.name.write x)
  | .bool b => some (if b then "true" else "false")
  | _ => none

/-- Equality of floating-point keys: a number that is none equals itself. -/
def sameFloat (x y : Float) : Bool := x == y || (x.isNaN && y.isNaN)

/-- The name of a tag without a mark in front, unless it is nothing but that mark. -/
def unmarked (tag : String) : List Char :=
  match tag.toList with
  | '!' :: c :: rest => c :: rest
  | cs => cs

mutual

/-- Equality of nodes. The order of a mapping's entries does not matter. -/
def same : Node → Node → Bool
  | .null, .null => true
  | .bool a, .bool b => a == b
  | .int a, .int b => a == b
  | .float a, .float b => sameFloat a b
  | .text a, .text b => a == b
  | .sequence as, .sequence bs => sameItems as bs
  | .mapping as, .mapping bs => as.length == bs.length && sameEntries as bs
  | .tagged s a, .tagged t b => unmarked s == unmarked t && same a b
  | _, _ => false

/-- Equality of sequences, item by item. -/
def sameItems : List Node → List Node → Bool
  | [], [] => true
  | a :: as, b :: bs => same a b && sameItems as bs
  | _, _ => false

/-- Whether every entry of the first mapping is an entry of the second one. -/
def sameEntries : List (Node × Node) → List (Node × Node) → Bool
  | [], _ => true
  | (k, v) :: rest, bs => (bs.any fun p => same k p.1 && same v p.2) && sameEntries rest bs

end

mutual

/-- Whether no part of a node has a tag. -/
def untagged : Node → Bool
  | .sequence items => untaggedItems items
  | .mapping entries => untaggedEntries entries
  | .tagged _ _ => false
  | _ => true

/-- Whether no item of a sequence has a tag in it. -/
def untaggedItems : List Node → Bool
  | [] => true
  | n :: rest => untagged n && untaggedItems rest

/-- Whether no key and no content of a mapping has a tag in it. -/
def untaggedEntries : List (Node × Node) → Bool
  | [] => true
  | (k, v) :: rest => untagged k && untagged v && untaggedEntries rest

end

mutual

/-- The node of a value. -/
def ofValue : Value → Node
  | .null => .null
  | .bool b => .bool b
  | .int n => .int n
  | .float x => .float x
  | .text s => .text s
  | .list items => .sequence (ofItems items)
  | .object fields => .mapping (ofFields fields)

/-- The nodes of the items of a list. -/
def ofItems : List Value → List Node
  | [] => []
  | v :: rest => ofValue v :: ofItems rest

/-- The entries of the fields of an object. -/
def ofFields : List (String × Value) → List (Node × Node)
  | [] => []
  | (k, v) :: rest => (.text k, ofValue v) :: ofFields rest

end

mutual

/-- The value of a node. A node with a tag on a content, or with a key that is no text, has
none; a tag on a key is passed over. -/
def toValue? : Node → Option Value
  | .null => some .null
  | .bool b => some (.bool b)
  | .int n => some (.int n)
  | .float x => some (Value.ofFloat x)
  | .text s => some (.text s)
  | .sequence items => (toItems? items).map .list
  | .mapping entries => (toFields? entries).map fun fields => .object (Dict.ofPairs fields)
  | .tagged _ _ => none

/-- The values of the items of a sequence. -/
def toItems? : List Node → Option (List Value)
  | [] => some []
  | n :: rest =>
    match toValue? n, toItems? rest with
    | some v, some vs => some (v :: vs)
    | _, _ => none

/-- The fields of a mapping. -/
def toFields? : List (Node × Node) → Option (List (String × Value))
  | [] => some []
  | (k, n) :: rest =>
    match k.content, toValue? n, toFields? rest with
    | .text name, some v, some fields => some ((name, v) :: fields)
    | _, _, _ => none

end

end Node

end WorkflowGraph.Yaml
