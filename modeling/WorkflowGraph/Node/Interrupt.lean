import WorkflowGraph.Node.Transform
import WorkflowGraph.Template

/-!
# Interrupts

An interrupt halts the run with a message for its caller. When the run is resumed, the
value of the caller is written to the resume key.
-/

set_option autoImplicit false

namespace WorkflowGraph

/-- Where the message of an interrupt comes from. -/
inductive MessageSource where
  | template (text : String)
  | task (binding : TaskBinding)

/-- An interrupt. With `reuseMessage`, a message that the state holds already is taken
instead of a new one. -/
structure InterruptNode where
  source : MessageSource
  inputs : Dict String
  output : String
  resumeKey : String
  reuseMessage : Bool

namespace InterruptNode

/-- The message that the state holds already. -/
def known? (n : InterruptNode) (fields : Fields) : Option Value :=
  match n.reuseMessage, Dict.get? fields n.output with
  | true, some v => if v.isNull then none else some v
  | _, _ => none

/-- The message of an interrupt. -/
def message (n : InterruptNode) (id : String) (v : Visit) : Activity (Except TaskError Value) :=
  match n.known? v.fields with
  | some message => pure (.ok message)
  | none =>
    match n.source with
    | .template text => pure (.ok (.text (Template.render text v.fields)))
    | .task binding =>
      binding.call v (.plain binding.task id (variablesOf n.inputs [] v.fields) none)

/-- The suspension with a message. -/
def suspension (n : InterruptNode) (message : Value) : Suspension :=
  ⟨.single n.output message, message, n.resumeKey, false⟩

/-- What an interrupt does. -/
def behaviour (n : InterruptNode) (id : String) : Behaviour := fun v =>
  match v.resume with
  | some value => pure (.of (.ok (.proceed (.single n.resumeKey value))))
  | none => do
    let message ← n.message id v
    pure (.of (message.map fun m => .suspend (n.suspension m)))

end InterruptNode

end WorkflowGraph
