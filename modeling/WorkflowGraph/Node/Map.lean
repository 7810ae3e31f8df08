import WorkflowGraph.Node.Execution

/-!
# Maps

A map runs another node once for every item of a list, each time on the state with the
item and its index in it. The tasks run side by side within a limit. When all of them are
done, their results are collected in the order of the items; if one has failed, so has the
map.
-/

set_option autoImplicit false

namespace WorkflowGraph

/-- A map around a node whose result is in the field `inner`. -/
structure MapNode where
  spec : MapSpec
  inner : Option String

namespace MapNode

/-- The state of a task: that of the map with the item and its index. -/
def taskState (n : MapNode) (s : State) (index : Nat) (item : Value) : State :=
  let values := Dict.put s.values n.spec.item item
  { s with values := Dict.put values n.spec.indexField (.ofNat index) }

/-- The scope of a task. -/
def taskScope (id : String) (scope : Scope) (index : Nat) : Scope :=
  scope.child s!"{id}[{index}]"

/-- What is collected for the update of a task. -/
def collected (n : MapNode) (u : Update) : Value :=
  match n.inner.bind u.last? with
  | some v => v
  | none => if u.isEmpty then .null else .object u.toFields

/-- What a task has come to: the collected value, or the failure of its item. -/
def settled (n : MapNode) (index : Nat) (r : NodeRun) : Except String Value :=
  match r.result with
  | .ok (.proceed u) => .ok (n.collected u)
  | .ok (.suspend _) => .error s!"item {index}: suspended inside a map task"
  | .error e => .error (s!"item {index}: " ++ e.message)

/-- The failures in a list of results. -/
def failures : List (Except String Value) → List String
  | [] => []
  | .ok _ :: rest => failures rest
  | .error reason :: rest => reason :: failures rest

/-- The values in a list of results. -/
def successes : List (Except String Value) → List Value
  | [] => []
  | .ok v :: rest => v :: successes rest
  | .error _ :: rest => successes rest

/-- A list with the index of each item. -/
def indexed {α : Type} (items : List α) : List (Nat × α) := (List.range items.length).zip items

/-- What a map comes to when all its tasks are done. -/
def join (n : MapNode) (id : String) (runs : List NodeRun) : Attempt :=
  let results := (indexed runs).map fun p => n.settled p.1 p.2
  let errors := runs.flatMap NodeRun.errors
  if (failures results).isEmpty then
    ⟨.ok (.proceed (.single n.spec.collect (.list (successes results)))), errors⟩
  else ⟨.error (.failed id (String.intercalate "; " (failures results))), errors⟩

/-- The list that a map runs over. -/
def items (n : MapNode) (id : String) (s : State) : Except TaskError (List Value) :=
  match s.at? n.spec.source with
  | some (.list items) => .ok items
  | some v =>
    .error (.invalidResult id
      (ticked n.spec.source ++ " is a " ++ v.typeName ++ ", expected a list"))
  | none => .error (.invalidResult id (ticked n.spec.source ++ " is not set"))

/-- The number of tasks that may be under way, among `count` tasks. -/
def limit (n : MapNode) (scope : Scope) (count : Nat) : Nat :=
  match n.spec.maxConcurrency with
  | some limit => limit
  | none => scope.config.parallelism.getD count

/-- What a map does around a node. -/
def behaviour (n : MapNode) (id : String) (inner : Runner) : Behaviour := fun v =>
  match n.items id v.state with
  | .error e => pure (.of (.error e))
  | .ok [] => pure (.of (.ok (.proceed (.single n.spec.collect (.list [])))))
  | .ok items => do
    let tasks := (indexed items).map fun p =>
      inner (n.taskState v.state p.1 p.2) (taskScope id v.scope p.1) none
    let runs ← Activity.all (n.limit v.scope items.length) tasks
    pure (n.join id runs)

end MapNode

end WorkflowGraph
