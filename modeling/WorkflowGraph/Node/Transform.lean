import WorkflowGraph.Node.Execution

/-!
# Transforms

A transform makes one call, of a task or of a tool, and writes the result to a field.
What it hands over are its variables.
-/

set_option autoImplicit false

namespace WorkflowGraph

/-- A task with the executors that do it. -/
structure TaskBinding where
  task : String
  primary : Executor
  fallback : Option Executor

/-- The executor of an attempt. Without an executor to fall back to, it stays the same. -/
def TaskBinding.executor (b : TaskBinding) (fallback : Bool) : Executor :=
  match fallback, b.fallback with
  | true, some e => e
  | _, _ => b.primary

/-- Call the executor of an attempt. -/
def TaskBinding.call (b : TaskBinding) (v : Visit) (r : TaskRequest) :
    Activity (Except TaskError Value) :=
  Activity.callTask (b.executor v.fallback) r

/-- The variables of a call: the values of the paths in `inputs`, or all fields where there
are no inputs. Fixed values stand over fields, and inputs over fixed values. What a path
does not find is null. -/
def variablesOf (inputs : Dict String) (args : Dict Value) (fields : Fields) : Fields :=
  let start := if inputs.isEmpty then fields else []
  let withArgs := Dict.merge start args
  inputs.foldl (fun d p => Dict.put d p.1 (Value.ofOption (fields.at? p.2))) withArgs

/-- What a transform calls. -/
inductive TransformTarget where
  | task (binding : TaskBinding)
  | tool (tool : BoundTool)

/-- A transform. -/
structure TransformNode where
  target : TransformTarget
  inputs : Dict String
  args : Dict Value
  output : String
  outputSchema : Option Value

/-- The call of a transform. -/
def TransformNode.call (n : TransformNode) (id : String) (v : Visit) :
    Activity (Except TaskError Value) :=
  let values := variablesOf n.inputs n.args v.fields
  match n.target with
  | .task binding => binding.call v (.plain binding.task id values n.outputSchema)
  | .tool tool => Activity.callTool tool (.object values)

/-- What a transform does. -/
def TransformNode.behaviour (n : TransformNode) (id : String) : Behaviour := fun v => do
  let result ← n.call id v
  pure (.of (result.map fun value => .proceed (.single n.output value)))

end WorkflowGraph
