import WorkflowGraph.Node.Outcome
import WorkflowGraph.Node.Policy
import WorkflowGraph.Activity.Basic

/-!
# Executing nodes under their policies

Around every node, whatever its kind, stands the same frame. A node whose outputs are
there already is skipped, unless it is entered again after a suspension. A node whose
required fields are missing fails without an attempt. Otherwise it is attempted until an
attempt succeeds or none is left, and its policy says what a failure then means. All
attempts see the same state.
-/

set_option autoImplicit false

namespace WorkflowGraph

/-- What a node does in one attempt. -/
abbrev Behaviour : Type 1 := Visit → Activity Attempt

/-- How a node is executed, given the value of the caller where it is entered again. -/
abbrev Runner : Type 1 := State → Scope → Option Value → Activity NodeRun

/-- What stands around the behaviour of a node: its id, the field that holds its result,
and its policies. -/
structure NodeFrame where
  id : String
  output : Option String
  policy : NodePolicy

namespace NodeFrame

/-- Whether a state holds something other than null at the end of a path. -/
def isSet (s : State) (path : String) : Bool := isPopulated (s.at? path)

/-- Whether the outputs of the node are there already. -/
def isSettled (f : NodeFrame) (s : State) : Bool :=
  !f.policy.skipFields.isEmpty && f.policy.skipFields.all fun field => isSet s field

/-- The first required field that is missing. -/
def missing? (f : NodeFrame) (s : State) : Option String :=
  f.policy.requires.find? fun field => !isSet s field

/-- The record of a failure that the node went on after. -/
def recovered (f : NodeFrame) (e : TaskError) (s : State) : ErrorRecord :=
  .recovered f.id e.message s.step

/-- The end of an execution that did not succeed. -/
def giveUp (f : NodeFrame) (e : TaskError) (attempts : Nat) (s : State)
    (errors : List ErrorRecord) : NodeRun :=
  match f.policy.onError with
  | .skip => ⟨.ok .nothing, errors ++ [f.recovered e s], attempts, false⟩
  | _ => ⟨.error (.nodeExecution f.id attempts e), errors, attempts, false⟩

/-- The time that an attempt may take. -/
def limit? (f : NodeFrame) (scope : Scope) : Option Duration :=
  match f.policy.timeout with
  | some d => some d
  | none => scope.config.nodeTimeout

/-- One attempt, cut off when its time is up. -/
def attempt (f : NodeFrame) (b : Behaviour) (v : Visit) : Activity Attempt :=
  match f.limit? v.scope with
  | none => b v
  | some limit => do
    match ← (b v).within limit.wholeMillis with
    | some (a, _) => pure a
    | none => pure (.of (.error (.timeout f.id limit)))

/-- The attempt with number `number`, and up to `further` attempts after it. -/
def attempts (f : NodeFrame) (b : Behaviour) (s : State) (scope : Scope) (resume : Option Value)
    (number : Nat) (errors : List ErrorRecord) : (further : Nat) → Activity NodeRun
  | 0 => do
    let a ← f.attempt b (visit number)
    match a.result with
    | .ok outcome => pure ⟨.ok outcome, errors ++ a.errors, number, false⟩
    | .error e => pure (f.giveUp e number s (errors ++ a.errors))
  | further + 1 => do
    let a ← f.attempt b (visit number)
    match a.result with
    | .ok outcome => pure ⟨.ok outcome, errors ++ a.errors, number, false⟩
    | .error e => do
      if f.policy.onError = .retry then
        Activity.sleep (scope.config.retry.delay (number - 1)).wholeMillis
      f.attempts b s scope resume (number + 1) (errors ++ a.errors ++ [f.recovered e s]) further
where
  /-- What the attempt with a number is given. -/
  visit (number : Nat) : Visit :=
    ⟨s, scope, resume, f.policy.onError == .fallback && 1 < number⟩

/-- Execute a node. -/
def execute (f : NodeFrame) (b : Behaviour) : Runner := fun s scope resume =>
  if resume.isNone && f.isSettled s then pure ⟨.ok .nothing, [], 0, true⟩
  else
    match f.missing? s with
    | some field =>
      let unset := "required field " ++ ticked field ++ " is not populated"
      pure (f.giveUp (.failed f.id unset) 0 s [])
    | none =>
      f.attempts b s scope resume 1 [] (f.policy.maxAttempts scope.config.retry.maxRetries - 1)

end NodeFrame

end WorkflowGraph
