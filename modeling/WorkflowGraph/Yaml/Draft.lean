import WorkflowGraph.Yaml.Scalar
import WorkflowGraph.Yaml.Token

/-!
# Drafts of YAML nodes

A draft is a node as it is written: a scalar without a type, a collection, or an alias,
which names an anchor by its number. `Document.node?` resolves the aliases of a document
and gives the scalars their types. It follows aliases into the nodes that they stand for,
so it takes the depth that is left as its measure, and it counts the aliases: a document
in which more than a hundred of them are resolved for every event is refused.
-/

set_option autoImplicit false

namespace WorkflowGraph.Yaml

/-- A node as it is written. -/
inductive Draft where
  | scalar (tag : Option Tag) (text : String) (style : ScalarStyle)
  | alias (anchor : Nat)
  | sequence (tag : Option Tag) (items : List Draft)
  | mapping (tag : Option Tag) (entries : List (Draft × Draft))
  deriving Inhabited

/-- A scalar without text. -/
def Draft.empty : Draft := .scalar none "" .plain

/-- A document: its node, which is missing where the text has no token, the nodes that its
anchors stand for, and the number of its events: one for every scalar and every alias, two
for every collection. -/
structure Document where
  root : Option Draft
  anchors : Array Draft
  events : Nat

/-- A reader that counts the aliases that have been resolved. -/
abbrev Resolving : Type → Type := StateT Nat Option

namespace Document

/-- How many aliases of a document may be resolved. -/
def maxAliases (doc : Document) : Nat := 100 * doc.events

/-- The draft that an alias stands for; any other draft stands for itself. -/
def resolve (doc : Document) : Draft → Resolving Draft
  | .alias anchor => do
    let resolved := (← get) + 1
    set resolved
    if resolved ≤ doc.maxAliases then doc.anchors[anchor]? else none
  | d => pure d

/-- The text of a scalar, of whatever type it looks. -/
def text? (doc : Document) (d : Draft) : Resolving String := do
  match ← doc.resolve d with
  | .scalar _ text _ => pure text
  | _ => failure

end Document

/-- Put a node under its tag, if the tag is one of the document's own. -/
def underOwnTag (tag : Option Tag) (n : Node) : Node :=
  match tag.bind Tag.ownName? with
  | some name => .tagged name n
  | none => n

/-- The node of a scalar without a tag. -/
def untaggedNode? (text : String) : ScalarStyle → Option Node
  | .plain => Scalar.plain? text
  | _ => some (.text text)

/-- The node of a scalar. -/
def scalarNode? (tag : Option Tag) (text : String) (style : ScalarStyle) : Option Node :=
  match tag with
  | some t =>
    if t.isOwn then (untaggedNode? text style).map (underOwnTag tag) else Scalar.underTag? t text
  | none => untaggedNode? text style

/-- What may be the key of a mapping. -/
inductive KeyRule where
  /-- Any node, each at most once. -/
  | distinct
  /-- Any scalar; its text is the key, of whatever type it looks. -/
  | texts
  deriving DecidableEq

/-- A mapping with a further entry, if the rule of its keys allows it. -/
def KeyRule.extended? (rule : KeyRule) (entries : List (Node × Node)) (k v : Node) :
    Option (List (Node × Node)) :=
  if rule = .distinct ∧ entries.any fun p => p.1.same k then none else some (entries ++ [(k, v)])

namespace Document

/-- The node of a draft, where `inner` reads what stands in a collection; without it no
collection may be opened. -/
def nodeWith? (doc : Document) (rule : KeyRule) (inner : Option (Draft → Resolving Node))
    (d : Draft) : Resolving Node := do
  match ← doc.resolve d, inner with
  | .scalar tag text style, _ => scalarNode? tag text style
  | .sequence tag items, some read => return underOwnTag tag (.sequence (← items.mapM read))
  | .mapping tag entries, some read =>
    let entries ← entries.foldlM (fun done p => do
      let k ← match rule with
        | .distinct => read p.1
        | .texts => Node.text <$> doc.text? p.1
      let v ← read p.2
      rule.extended? done k v) []
    return underOwnTag tag (.mapping entries)
  | _, _ => failure

/-- The node of a draft in which collections are nested no deeper than a number tells. -/
def node? (doc : Document) (rule : KeyRule) : Nat → Draft → Resolving Node
  | 0 => doc.nodeWith? rule none
  | depth + 1 => doc.nodeWith? rule (some (doc.node? rule depth))

end Document

/-- How many collections may be nested in one another. -/
def maxDepth : Nat := 128

/-- The node of a document; a document without a node is null. -/
def Document.content? (doc : Document) : Option Node :=
  match doc.root with
  | none => some .null
  | some root => (doc.node? .distinct maxDepth root).run' 0

end WorkflowGraph.Yaml
