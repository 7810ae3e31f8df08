import WorkflowGraph.Node.Transform

/-!
# Routers

A router writes the value that decides which node comes next. The value is read from the
state, or it is what a task answers.
-/

set_option autoImplicit false

namespace WorkflowGraph

/-- Where the value of a router comes from. -/
inductive RouteSource where
  | task (binding : TaskBinding)
  | path (path : String)

/-- A router. -/
structure RouterNode where
  source : RouteSource
  inputs : Dict String
  field : String
  classificationKey : String
  outputSchema : Option Value

namespace RouterNode

/-- A text without the blanks around it; any other value as it is. -/
def trimmed : Value → Value
  | .text s => .text (Text.trim s)
  | v => v

/-- The value in the answer of a task: the answer itself, or one of its fields. -/
def classify (n : RouterNode) : Value → Value
  | .object fields => trimmed (Value.ofOption (Dict.get? fields n.classificationKey))
  | v => trimmed v

/-- What a router does. -/
def behaviour (n : RouterNode) (id : String) : Behaviour := fun v =>
  match n.source with
  | .path path =>
    pure (.of (.ok (.proceed (.single n.field (Value.ofOption (v.fields.at? path))))))
  | .task binding => do
    let values := variablesOf n.inputs [] v.fields
    let result ← binding.call v (.plain binding.task id values n.outputSchema)
    pure (.of (result.map fun answer => .proceed (.single n.field (n.classify answer))))

end RouterNode

end WorkflowGraph
