import WorkflowGraph.Graph.Walk

/-!
# Running graphs

A subgraph runs on a thread of its own, below the thread of the graph around it. When it
suspends, so does the graph around it, and the value that this is resumed with is handed
on to it. Running a node and running a graph are therefore defined together, along the
structure of the nodes.
-/

set_option autoImplicit false

namespace WorkflowGraph

namespace FieldMappings

/-- The fields of the state around that a graph starts with; what is not there is left out. -/
def inputOf (m : FieldMappings) (s : State) : Fields :=
  m.input.foldl
    (fun d p =>
      match s.at? p.1 with
      | some v => Dict.put d p.2 v
      | none => d)
    []

/-- The update that takes fields of a graph's state back to the state around. -/
def back (mapping : Dict String) (s : State) : Update :=
  ⟨mapping.filterMap fun p => (s.at? p.1).map fun v => (p.2, v)⟩

/-- What the node of a subgraph comes to when the graph inside it has run. -/
def outcome (m : FieldMappings) (id name : String) : RunResult → Except TaskError NodeOutcome
  | .complete s => .ok (.proceed (back m.output s))
  | .suspended pending s =>
    .ok (.suspend ⟨back m.interrupt s, pending.payload, pending.resumeKey, true⟩)
  | .failed e _ => .error (.failed id ("subgraph " ++ ticked name ++ " failed: " ++ e.message))

/-- What a subgraph does. A fresh visit never goes on with an older run. -/
def behaviour (m : FieldMappings) (id : String) (g : GraphFrame)
    (runner? : String → Option Runner) : Behaviour := fun v => do
  let thread := v.scope.childThread id
  match v.resume with
  | some value =>
    let result ← g.resumeThread runner? thread value
    pure (.of (m.outcome id g.name result))
  | none =>
    match ← g.reset thread with
    | .error e => pure (.of (.error (.failed id e.message)))
    | .ok _ =>
      let result ← g.runThread runner? (m.inputOf v.state) thread
      pure (.of (m.outcome id g.name result))

end FieldMappings

mutual

/-- How a node is executed. -/
def GraphNode.runner : GraphNode → Runner
  | .leaf frame action => frame.execute (action.behaviour frame.id)
  | .map frame spec inner =>
    frame.execute (MapNode.behaviour ⟨spec, inner.frame.output⟩ frame.id inner.runner)
  | .subgraph frame mappings graph nodes =>
    frame.execute (mappings.behaviour frame.id graph (GraphNode.runnerIn? nodes))

/-- How the node with an id is executed; of several nodes with one id it is the last. -/
def GraphNode.runnerIn? : List (String × GraphNode) → String → Option Runner
  | [], _ => none
  | (key, node) :: rest, id =>
    match GraphNode.runnerIn? rest id with
    | some runner => some runner
    | none => if key = id then some node.runner else none

end

namespace Graph

/-- The nodes of a graph. -/
def runner? (g : Graph) : String → Option Runner := GraphNode.runnerIn? g.nodes

/-- Run a thread. The input is an object, or null for no input. -/
def run (g : Graph) (input : Value) (thread : String) : Activity RunResult :=
  match input with
  | .object fields => g.frame.runThread g.runner? fields thread
  | .null => g.frame.runThread g.runner? [] thread
  | v => pure (.failed (.state (.inputNotObject v.typeName)) .blank)

/-- Resume a suspended thread with the value of its caller. -/
def resume (g : Graph) (thread : String) (value : Value) : Activity RunResult :=
  g.frame.resumeThread g.runner? thread value

/-- Forget a thread. -/
def reset (g : Graph) (thread : String) : Activity (Except RunError Unit) := g.frame.reset thread

/-- The latest state of a thread that has been saved. -/
def stateOf (g : Graph) (thread : String) : Activity (Except RunError (Option State)) := do
  let loaded ← g.frame.load thread
  pure (loaded.map fun c => c.map Checkpoint.state)

/-- The graph with another configuration; the graphs inside it keep theirs. -/
def withConfig (g : Graph) (config : RunConfig) : Graph :=
  { g with frame := { g.frame with config } }

end Graph

end WorkflowGraph
