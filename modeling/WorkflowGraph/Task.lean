import WorkflowGraph.Message
import WorkflowGraph.Tool

/-!
# Tasks

The work of a node is done by executors. An executor gets a request, which names
the task and carries the values that the task needs, and answers with a value.
-/

set_option autoImplicit false

namespace WorkflowGraph

/-- One call of an executor. -/
structure TaskRequest where
  task : String
  node : String
  values : Fields
  outputSchema : Option Value
  messages : List Message
  tools : List ToolDescription

/-- A request without conversation and without tools. -/
def TaskRequest.plain (task node : String) (values : Fields) (outputSchema : Option Value) :
    TaskRequest :=
  ⟨task, node, values, outputSchema, [], []⟩

/-- The written form of a request; empty parts are left out. -/
def TaskRequest.toValue (r : TaskRequest) : Value :=
  .object <|
    (if r.messages.isEmpty then [] else [("messages", .list (r.messages.map Message.toValue))]) ++
    [("node", .text r.node)] ++
    (match r.outputSchema with
      | none => []
      | some schema => [("output_schema", schema)]) ++
    [("task", .text r.task)] ++
    (if r.tools.isEmpty then [] else
      [("tools", .list (r.tools.map ToolDescription.toValue))]) ++
    [("variables", .object r.values)]

/-- Something that answers requests. Executors with one name are one executor; where
`tasks` is set, it answers only the tasks in it. -/
structure Executor where
  name : String
  tasks : Option (List String)
  deriving DecidableEq, Repr

/-- Whether an executor answers a task. -/
def Executor.supports (e : Executor) (task : String) : Bool :=
  e.tasks.all fun tasks => tasks.contains task

/-- How an executor is found for the configuration of a backend; without one, the
standard executor. The failure is a reason in words. -/
abbrev ExecutorSupply : Type := Option Value → Except String Executor

end WorkflowGraph
