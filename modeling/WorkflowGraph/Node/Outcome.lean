import WorkflowGraph.Config
import WorkflowGraph.Error
import WorkflowGraph.State.Basic

/-!
# Outcomes of nodes

A node reads the state of its run and comes to an outcome: an update that is merged into
the state, or a suspension that halts the run until its caller gives a value.
-/

set_option autoImplicit false

namespace WorkflowGraph

/-- What a run belongs to: its thread and its configuration. -/
structure Scope where
  thread : String
  config : RunConfig

/-- The thread of a nested run. -/
def Scope.childThread (s : Scope) (segment : String) : String := s.thread ++ "/" ++ segment

/-- The scope of a nested run. -/
def Scope.child (s : Scope) (segment : String) : Scope := { s with thread := s.childThread segment }

/-- What a node is given for one attempt. `resume` is the value of the caller where the node
is entered again after a suspension; `fallback` is set on further attempts of a node that
falls back to another executor. -/
structure Visit where
  state : State
  scope : Scope
  resume : Option Value
  fallback : Bool

/-- The fields that a node reads. -/
def Visit.fields (v : Visit) : Fields := v.state.values

/-- A request to halt the run. The update is merged into the state before; `nested` is set
where the request comes from a graph inside the node. -/
structure Suspension where
  update : Update
  payload : Value
  resumeKey : String
  nested : Bool

/-- What a node comes to. -/
inductive NodeOutcome where
  | proceed (update : Update)
  | suspend (suspension : Suspension)

namespace NodeOutcome

/-- The outcome that changes nothing. -/
def nothing : NodeOutcome := .proceed .empty

/-- The update of an outcome. -/
def update : NodeOutcome → Update
  | .proceed u => u
  | .suspend s => s.update

/-- Whether the outcome halts the run. -/
def isSuspended : NodeOutcome → Bool
  | .proceed _ => false
  | .suspend _ => true

end NodeOutcome

/-- One attempt of a node: what it came to, and the errors that it went on after. -/
structure Attempt where
  result : Except TaskError NodeOutcome
  errors : List ErrorRecord

/-- The attempt with a result and no errors before it. -/
def Attempt.of (result : Except TaskError NodeOutcome) : Attempt := ⟨result, []⟩

/-- The execution of a node with all its attempts. -/
structure NodeRun where
  result : Except RunError NodeOutcome
  errors : List ErrorRecord
  attempts : Nat
  skipped : Bool

end WorkflowGraph
