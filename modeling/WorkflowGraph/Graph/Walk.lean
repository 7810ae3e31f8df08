import WorkflowGraph.Graph.Basic

/-!
# Walks

A walk goes from node to node: it executes a node, merges the update into the state, and
asks the transition table for the next node. It ends where there is no next node, where a
node suspends, or with the first error. The state is saved after a suspension, at the end,
and after as many steps as the configuration says.
-/

set_option autoImplicit false

namespace WorkflowGraph

/-- How a walk ends. -/
inductive WalkEnd where
  | complete
  | suspended (pending : PendingInterrupt)
  | failed (error : RunError)

namespace GraphFrame

/-- The latest checkpoint of a thread. A graph without a store has none. -/
def load (g : GraphFrame) (thread : String) : Activity (Except RunError (Option Checkpoint)) :=
  match g.store with
  | none => pure (.ok none)
  | some store => do
    let loaded ← Activity.perform (.load store thread)
    pure (loaded.mapError .checkpoint)

/-- Forget the checkpoints of a thread. -/
def reset (g : GraphFrame) (thread : String) : Activity (Except RunError Unit) :=
  match g.store with
  | none => pure (.ok ())
  | some store => do
    let deleted ← Activity.perform (.delete store thread)
    pure (deleted.mapError .checkpoint)

/-- The checkpoint of a state. -/
def checkpoint (g : GraphFrame) (thread : String) (s : State) (next : Option String) :
    Checkpoint :=
  (Checkpoint.ofState thread s next).withMetadata "graph" g.name

/-- Save a state, and forget old ones where the configuration says so. -/
def save (g : GraphFrame) (thread : String) (s : State) (next : Option String) :
    Activity (Except RunError Unit) :=
  match g.store with
  | none => pure (.ok ())
  | some store => do
    match ← Activity.perform (.save store (g.checkpoint thread s next)) with
    | .error e => pure (.error (.checkpoint e))
    | .ok _ =>
      match g.config.checkpointRetention with
      | none => pure (.ok ())
      | some keep => do
        let pruned ← Activity.perform (.prune store thread (max keep 1))
        pure ((pruned.map fun _ => ()).mapError .checkpoint)

/-- Count the visit of a node that has a limit. Entering a node again after a suspension is
no further visit. -/
def visit (g : GraphFrame) (s : State) (node : String) (resume : Option Value) :
    Except RunError Unit × State :=
  match resume, g.table.limit? node with
  | none, some limit =>
    let visits := (s.loopCounters.get? node).getD 0 + 1
    let s := { s with loopCounters := s.loopCounters.put node visits }
    if limit < visits then (.error (.loopLimitExceeded node limit), s) else (.ok (), s)
  | _, _ => (.ok (), s)

/-- The state after a node has been executed, before its update is merged. -/
def afterRun (s : State) (r : NodeRun) : State :=
  { s with step := s.step + 1, errors := s.errors ++ r.errors }

/-- What a suspended run waits for. -/
def pendingAt (node : String) (s : Suspension) : PendingInterrupt :=
  ⟨node, s.resumeKey, s.payload, s.nested⟩

/-- What is left to do when a node has come to an outcome. -/
inductive Onward where
  | stop (ending : WalkEnd)
  | go (node : String)

/-- Merge the outcome of a node, save the state where that is due, and say how the walk
goes on. -/
def settle (g : GraphFrame) (thread node : String) (s : State) :
    NodeOutcome → Activity (Onward × State)
  | .suspend suspension => do
    let pending := pendingAt node suspension
    let s := { s.apply g.shape suspension.update with interrupt := some pending }
    match ← g.save thread s (some node) with
    | .error e => pure (.stop (.failed e), s)
    | .ok _ => pure (.stop (.suspended pending), s)
  | .proceed update => do
    let s := s.apply g.shape update
    match g.table.next node s.values with
    | .error e => pure (.stop (.failed e), s)
    | .ok (some next) =>
      if g.config.isDue s.step then
        match ← g.save thread s (some next) with
        | .error e => pure (.stop (.failed e), s)
        | .ok _ => pure (.go next, s)
      else pure (.go next, s)
    | .ok none =>
      match ← g.save thread s none with
      | .error e => pure (.stop (.failed e), s)
      | .ok _ => pure (.stop .complete, s)

/-- Walk on from a node for at most `steps` steps. `budget` is the time that is left for the
whole run; where it runs out, what the node in execution has done is lost. -/
def walkFrom (g : GraphFrame) (runner? : String → Option Runner) (scope : Scope)
    (budget : Option Nat) (s : State) (node : String) (resume : Option Value) :
    (steps : Nat) → Activity (WalkEnd × State)
  | 0 => pure (.failed (.maxStepsExceeded g.config.maxSteps), s)
  | steps + 1 =>
    match runner? node with
    | none => pure (.failed (.state (.unknownNode node)), s)
    | some runner =>
      match g.visit s node resume with
      | (.error e, s) => pure (.failed e, s)
      | (.ok _, s) => do
        match ← (runner s scope resume).withinOption budget with
        | none => pure (.failed (.workflowTimeout (g.config.workflowTimeout.getD ⟨0⟩)), s)
        | some (r, budget) =>
          let s := afterRun s r
          match r.result with
          | .error e => pure (.failed e, s)
          | .ok outcome => do
            match ← g.settle scope.thread node s outcome with
            | (.stop ending, s) => pure (ending, s)
            | (.go next, s) => g.walkFrom runner? scope budget s next none steps

/-- The record of the error that ended a run. An error that belongs to no node is recorded
under the name of the graph. -/
def fatal (g : GraphFrame) (e : RunError) (s : State) : ErrorRecord :=
  .ending (e.node?.getD g.name) e.message s.step

/-- Walk from a node. -/
def walk (g : GraphFrame) (runner? : String → Option Runner) (s : State) (start thread : String)
    (resume : Option Value) : Activity RunResult := do
  let budget := g.config.workflowTimeout.map Duration.wholeMillis
  match ← g.walkFrom runner? ⟨thread, g.config⟩ budget s start resume g.config.maxSteps with
  | (.complete, s) => pure (.complete s)
  | (.suspended pending, s) => pure (.suspended pending s)
  | (.failed e, s) => pure (.failed e (s.record (g.fatal e s)))

/-- Go on with a suspended state, with the value of its caller. -/
def resumeState (g : GraphFrame) (runner? : String → Option Runner) (s : State)
    (pending : PendingInterrupt) (value : Value) (thread : String) : Activity RunResult :=
  g.walk runner? { s with interrupt := none } pending.node thread (some value)

/-- Run a thread with the fields of an input. A thread without a checkpoint starts at the
entry. A suspended one is resumed where the input holds the value that it waits for, and
stays as it is otherwise. One that has stopped on its way goes on there, and one that is
complete starts again at the entry with the fields that it has. -/
def runThread (g : GraphFrame) (runner? : String → Option Runner) (input : Fields)
    (thread : String) : Activity RunResult := do
  match ← g.load thread with
  | .error e => pure (.failed e .blank)
  | .ok none => g.walk runner? (.ofFields input) g.table.entry thread none
  | .ok (some c) =>
    match c.state.interrupt with
    | some pending =>
      match Dict.get? input pending.resumeKey with
      | none => pure (.suspended pending c.state)
      | some value =>
        g.resumeState runner? (c.state.mergeInput (Dict.drop input pending.resumeKey)) pending value
          thread
    | none =>
      let s := c.state.mergeInput input
      match c.next with
      | some node => g.walk runner? s node thread none
      | none => g.walk runner? { s with loopCounters := [] } g.table.entry thread none

/-- Resume a suspended thread with the value of its caller. -/
def resumeThread (g : GraphFrame) (runner? : String → Option Runner) (thread : String)
    (value : Value) : Activity RunResult := do
  match ← g.load thread with
  | .error e => pure (.failed e .blank)
  | .ok none => pure (.failed (.noPendingInterrupt thread) .blank)
  | .ok (some c) =>
    match c.state.interrupt with
    | none => pure (.failed (.noPendingInterrupt thread) c.state)
    | some pending => g.resumeState runner? c.state pending value thread

end GraphFrame

end WorkflowGraph
