import WorkflowGraph.Dict
import WorkflowGraph.Value

/-!
# Tools

A tool is registered under the name of its description. A definition declares the
tools that its nodes may use under names of its own; a bound tool shows the
declared name and leads to the registered tool.
-/

set_option autoImplicit false

namespace WorkflowGraph

/-- What an executor is told of a tool. -/
structure ToolDescription where
  name : String
  description : String
  parameters : Value

/-- The written form of a description. -/
def ToolDescription.toValue (t : ToolDescription) : Value :=
  .object [("description", .text t.description), ("name", .text t.name),
    ("parameters", t.parameters)]

/-- The registered tools under their names. -/
structure ToolRegistry where
  tools : Dict ToolDescription

namespace ToolRegistry

/-- The registry without any tool. -/
def empty : ToolRegistry := ⟨[]⟩

/-- Register a tool; it replaces one of the same name. -/
def register (r : ToolRegistry) (t : ToolDescription) : ToolRegistry := ⟨r.tools.put t.name t⟩

/-- The registry of a list of tools, of which later ones replace earlier ones. -/
def ofList (tools : List ToolDescription) : ToolRegistry := tools.foldl register empty

/-- The tool with a name. -/
def get? (r : ToolRegistry) (name : String) : Option ToolDescription := r.tools.get? name

/-- Whether a name is registered. -/
def has (r : ToolRegistry) (name : String) : Bool := r.tools.has name

/-- All tools in the order of their names. -/
def descriptions (r : ToolRegistry) : List ToolDescription := r.tools.values

/-- All names in rising order. -/
def names (r : ToolRegistry) : List String := r.tools.names

/-- The number of tools. -/
def size (r : ToolRegistry) : Nat := r.tools.length

end ToolRegistry

/-- A declared tool together with the name of the registered tool behind it. -/
structure BoundTool where
  shown : ToolDescription
  registered : String

/-- Bind a registered tool to a declared name. A declared text replaces that of the
registered tool, and so do declared parameters. -/
def BoundTool.bind (name : String) (tool : ToolDescription) (description : Option String)
    (parameters : Option Value) : BoundTool :=
  ⟨⟨name, description.getD tool.description, parameters.getD tool.parameters⟩, tool.name⟩

/-- The declared name. -/
def BoundTool.name (t : BoundTool) : String := t.shown.name

end WorkflowGraph
