import WorkflowGraph.State.Basic
import WorkflowGraph.Text.Alphanumeric
import WorkflowGraph.Transition.Table

/-!
# Diagrams

A graph is drawn as a Mermaid flowchart: a line per marker, a line per node, with
a shape for its kind, and a line per edge. With a state, the node that the run
waits at and the nodes with errors are marked.
-/

set_option autoImplicit false

namespace WorkflowGraph.Diagram

/-- The name of a node in a diagram: letters, digits and underscores, with an
underscore in the place of every other character. -/
def identifier (id : String) : String :=
  id.map fun c => if Text.isAlphanumeric c || c == '_' then c else '_'

/-- A label, in which a quote is written as an entity. -/
def label (text : String) : String :=
  String.join (text.toList.map fun c => if c == '"' then "#quot;" else String.singleton c)

/-- What stands before and after the label of a node of a kind; without a kind, of a
marker. -/
def brackets : Option NodeKind → String × String
  | some (.transform _) => ("[\"", "\"]")
  | some (.agent _) => ("[[\"", "\"]]")
  | some (.router _) => ("\x7b\"", "\"\x7d")
  | some (.subgraph _) => ("[(\"", "\")]")
  | some (.map _ _ _) => ("[/\"", "\"\\]")
  | some (.interrupt _) => ("\x7b\x7b\"", "\"\x7d\x7d")
  | some (.passthrough _) => ("(\"", "\")")
  | none => ("([\"", "\"])")

/-- The line of a node, or of a marker where there is no kind. -/
def nodeLine (id : String) (kind : Option NodeKind) : String :=
  let (before, after) := brackets kind
  "    " ++ identifier id ++ before ++ label id ++ after

/-- The line of an edge; an edge with a label is dotted. -/
def edgeLine (e : EdgeView) : String :=
  match e.label with
  | some text =>
    "    " ++ identifier e.source ++ " -. \"" ++ label text ++ "\" .-> " ++ identifier e.target
  | none => "    " ++ identifier e.source ++ " --> " ++ identifier e.target

/-- The classes that mark nodes. -/
def classLines : String :=
  "\n    classDef suspended fill:#FFE4B5,stroke:#FF8C00,stroke-width:2px\n" ++
  "    classDef failed fill:#F4A6A6,stroke:#B22222,stroke-width:2px\n" ++
  "    classDef recovered fill:#FFFACD,stroke:#DAA520,stroke-width:1px"

/-- The class of a node in a state. -/
def class? (s : State) (id : String) : Option String :=
  if s.interrupt.any fun p => p.node == id then some "suspended"
  else
    let errors := s.errors.filter fun e => e.node == id
    if errors.any ErrorRecord.fatal then some "failed"
    else if errors.isEmpty then none
    else some "recovered"

/-- The markers that edges mention, in rising order. -/
def markers (edges : List EdgeView) : List String :=
  [endMarker, startMarker].filter fun m => edges.any fun e => e.source == m || e.target == m

/-- The line of a node, marked with its class in a state. -/
def markedLine (s : Option State) (n : NodeDecl) : String :=
  let line := nodeLine n.id (some n.kind)
  match s.bind fun s => class? s n.id with
  | some c => line ++ ":::" ++ c
  | none => line

/-- The diagram of nodes and edges. -/
def render (nodes : List NodeDecl) (edges : List EdgeView) (s : Option State) : String :=
  String.intercalate "\n" <|
    ["flowchart TD"] ++ (markers edges).map (fun m => nodeLine m none) ++
    nodes.map (markedLine s) ++ edges.map edgeLine ++
    if s.isSome then [classLines] else []

end WorkflowGraph.Diagram
