import WorkflowGraph.Duration
import WorkflowGraph.Yaml.Node

/-!
# Typed parts of YAML nodes

Readers for texts, numbers, lists and records in a node. They look below tags,
never convert a text into a number or back, and give nothing where the node does
not have the type. The keys of a record are the names of its fields, or in some
places the numbers that the fields have in their order.
-/

set_option autoImplicit false

namespace WorkflowGraph.Yaml.Node

/-- A text. -/
def text? (n : Node) : Option String :=
  match n.content with
  | .text s => some s
  | _ => none

/-- A natural number that fits in a word. -/
def nat? (n : Node) : Option Nat :=
  match n.content with
  | .int k => if 0 ≤ k then some k.toNat else none
  | _ => none

/-- A boolean. -/
def flag? (n : Node) : Option Bool :=
  match n.content with
  | .bool b => some b
  | _ => none

/-- A duration, which is written as a text. -/
def duration? (n : Node) : Option Duration := n.text?.bind Duration.read?

/-- Null, or something that can be read. -/
def optional? {α : Type} (read : Node → Option α) : Node → Option (Option α)
  | .null => some none
  | n => (read n).map some

/-- Read every item of a list. -/
def all? {α : Type} (read : Node → Option α) : List Node → Option (List α)
  | [] => some []
  | n :: rest =>
    match read n, all? read rest with
    | some a, some as => some (a :: as)
    | _, _ => none

/-- A list whose items can be read. -/
def list? {α : Type} (read : Node → Option α) (n : Node) : Option (List α) :=
  match n.content with
  | .sequence items => all? read items
  | _ => none

/-- Read the content behind every key. -/
def allEntries? {α : Type} (read : Node → Option α) :
    List (Node × Node) → Option (List (String × α))
  | [] => some []
  | (k, v) :: rest =>
    match k.text?, read v, allEntries? read rest with
    | some name, some a, some as => some ((name, a) :: as)
    | _, _, _ => none

/-- A mapping from texts to something that can be read. -/
def dict? {α : Type} (read : Node → Option α) (n : Node) : Option (Dict α) :=
  match n.content with
  | .mapping entries => (allEntries? read entries).map Dict.ofPairs
  | _ => none

/-- The key of a record that is a text, under whatever tag. -/
def textKey? (k : Node) : Option (Option String) := k.text?.map some

/-- The key of a record that is a text or the place of a field, counted from zero. A place
behind the last field names none. -/
def placeKey? (order : List String) : Node → Option (Option String)
  | .text s => some (some s)
  | .int i => if 0 ≤ i then some order[i.toNat]? else none
  | _ => none

/-- Whether a node stands for no content at all. -/
def isNothing : Node → Bool
  | .null => true
  | .mapping [] => true
  | _ => false

/-- A choice without content: its name, or a mapping with its name or its place among all
choices as the only key. -/
def choice? {α : Type} (ofName? : String → Option α) (all : List α) : Node → Option α
  | .text s => ofName? s
  | .mapping [(.text s, v)] => if v.isNothing then ofName? s else none
  | .mapping [(.int i, v)] => if v.isNothing ∧ 0 ≤ i then all[i.toNat]? else none
  | _ => none

end Node

/-- The entries of a record: what stands under the names of its fields. -/
abbrev Entries : Type := List (String × Node)

namespace Entries

/-- The entries of a mapping, where `name?` tells the name that a key stands for. A key
without a name is left out; one that can be no key refuses the record. -/
def named? (name? : Node → Option (Option String)) : List (Node × Node) → Option Entries
  | [] => some []
  | (k, v) :: rest =>
    match name? k, named? name? rest with
    | some (some name), some es => some ((name, v) :: es)
    | some none, some es => some es
    | _, _ => none

/-- Whether each of some fields has at most one entry. -/
def once (names : List String) (es : Entries) : Bool :=
  names.all fun name => decide ((es.filter fun e => e.1 == name).length ≤ 1)

/-- What stands under a name. -/
def get? (es : Entries) (name : String) : Option Node :=
  (es.find? fun e => e.1 == name).map Prod.snd

/-- Whether no content has a tag in it. -/
def untagged (es : Entries) : Bool := es.all fun e => e.2.untagged

/-- The entries that stand in the order of the fields; there may be fewer, but not more. -/
def inOrder? (names : List String) (items : List Node) : Option Entries :=
  if items.length ≤ names.length then some (names.zip items) else none

/-- A field that has to be there. -/
def field? {α : Type} (es : Entries) (name : String) (read : Node → Option α) : Option α :=
  (es.get? name).bind read

/-- A field that may be missing, and then has a default. -/
def fieldOr? {α : Type} (es : Entries) (name : String) (read : Node → Option α)
    (default : α) : Option α :=
  match es.get? name with
  | none => some default
  | some n => read n

/-- A field that may be missing or null. -/
def fieldOptional? {α : Type} (es : Entries) (name : String) (read : Node → Option α) :
    Option (Option α) :=
  es.fieldOr? name (Node.optional? read) none

/-- A content is smaller than the mapping that it stands in. -/
theorem sizeOf_lt_of_named? (name? : Node → Option (Option String))
    (entries : List (Node × Node)) (es : Entries) (h : named? name? entries = some es)
    (e : String × Node) (he : e ∈ es) : sizeOf e.2 < sizeOf entries := by
  induction entries generalizing es with
  | nil =>
    simp only [named?, Option.some.injEq] at h
    subst h
    simp at he
  | cons p rest ih =>
    obtain ⟨k, v⟩ := p
    simp only [List.cons.sizeOf_spec, Prod.mk.sizeOf_spec]
    unfold named? at h
    split at h
    · next name more _ hrest =>
      obtain rfl := Option.some.inj h
      rcases List.mem_cons.1 he with rfl | hmem
      · simp only
        omega
      · have := ih more hrest hmem
        omega
    · next more _ hrest =>
      obtain rfl := Option.some.inj h
      have := ih more hrest he
      omega
    · simp at h

/-- What is found under a name is one of the contents. -/
theorem mem_of_get? (es : Entries) (name : String) (n : Node) (h : es.get? name = some n) :
    ∃ e ∈ es, e.2 = n := by
  obtain ⟨e, he, rfl⟩ := Option.map_eq_some_iff.1 h
  exact ⟨e, List.mem_of_find?_eq_some he, rfl⟩

end Entries

namespace Node

/-- The entries of a record whose keys are texts; null is a record without entries. None of
the fields may be given twice. -/
def record? (names : List String) (n : Node) : Option Entries :=
  match n.content with
  | .mapping entries =>
    (Entries.named? textKey? entries).bind fun es => if es.once names then some es else none
  | .null => some []
  | _ => none

end Node

end WorkflowGraph.Yaml
