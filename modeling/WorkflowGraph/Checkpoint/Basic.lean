import WorkflowGraph.State.Record

/-!
# Checkpoints

A checkpoint is the state of a thread after a step, together with the node at which
the run goes on. It is kept under its thread and the number of the step.
-/

set_option autoImplicit false

namespace WorkflowGraph

open Record

/-- The state of a thread between two steps. -/
structure Checkpoint where
  thread : String
  step : Nat
  state : State
  next : Option String
  metadata : Dict String

namespace Checkpoint

/-- The checkpoint of a state, without metadata. -/
def ofState (thread : String) (state : State) (next : Option String) : Checkpoint :=
  ⟨thread, state.step, state, next, []⟩

/-- Add an entry to the metadata. -/
def withMetadata (c : Checkpoint) (key value : String) : Checkpoint :=
  { c with metadata := c.metadata.put key value }

/-- Whether the last run of the thread is complete. -/
def isComplete (c : Checkpoint) : Bool := c.next.isNone && c.state.interrupt.isNone

/-- Whether the thread waits for a value from its caller. -/
def isSuspended (c : Checkpoint) : Bool := c.state.interrupt.isSome

/-- The written form of a checkpoint. -/
def toValue (c : Checkpoint) : Value :=
  .object <|
    [("metadata", .object (c.metadata.mapValues .text))] ++
    (match c.next with
      | none => []
      | some node => [("next_node", .text node)]) ++
    [("state", c.state.toValue), ("step", .ofNat c.step), ("thread_id", .text c.thread),
      ("timestamp", .text Timestamp.written)]

/-- The form of a written checkpoint. -/
def form : Json.Form :=
  .record [("thread_id", .any), ("step", .any), ("state", State.form), ("next_node", .any),
    ("timestamp", .any), ("metadata", .dict .text)]

/-- Read a checkpoint. -/
def ofValue? (v : Value) : Option Checkpoint := do
  let get ← lookup? form.names v
  let thread ← (get "thread_id").bind text?
  let step ← (get "step").bind nat?
  let state ← (get "state").bind State.ofValue?
  let next ← orDefault? (optional? text?) none (get "next_node")
  let stamp ← (get "timestamp").bind text?
  let metadata ← orDefault? (dict? text?) [] (get "metadata")
  if Timestamp.isValid stamp then some ⟨thread, step, state, next, metadata⟩ else none

end Checkpoint

end WorkflowGraph
