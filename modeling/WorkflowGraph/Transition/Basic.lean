import WorkflowGraph.Condition.Eval
import WorkflowGraph.Definition.Basic
import WorkflowGraph.Error
import WorkflowGraph.Json.Writer

/-!
# Transitions

The transition of a node says which node comes next, given the fields of the
state. A router's transition looks up the text of a field in its routes.
-/

set_option autoImplicit false

namespace WorkflowGraph

/-- Where a transition leads. -/
inductive Target where
  | node (id : String)
  | finish
  deriving DecidableEq, Repr

namespace Target

/-- The target with a name. -/
def ofName (name : String) : Target := if name = endMarker then .finish else .node name

/-- The name of a target. -/
def name : Target → String
  | .node id => id
  | .finish => endMarker

/-- The node that a target is. -/
def node? : Target → Option String
  | .node id => some id
  | .finish => none

end Target

/-- The outgoing transition of a node. -/
inductive Transition where
  | direct (target : Target)
  | conditional (branches : List (Condition × Target)) (fallback : Option Target)
  | route (field : String) (routes : Dict Target) (fallback : Option Target)

/-- The text that a router compares with its routes. -/
def routeText? : Option Value → Option String
  | some (.text s) => some s
  | some (.int n) => some (toString n)
  | some (.float x) => some (writeFloat x)
  | some (.bool b) => some (if b then "true" else "false")
  | _ => none

namespace Transition

/-- Every target that a transition can lead to. -/
def targets : Transition → List Target
  | .direct target => [target]
  | .conditional branches fallback => branches.map Prod.snd ++ fallback.toList
  | .route _ routes fallback => routes.values ++ fallback.toList

/-- The nodes that a transition can lead to. -/
def successors (t : Transition) : List String := t.targets.filterMap Target.node?

/-- Where the transition of a node leads in a state. The first condition that holds
decides, and the fallback where none holds. -/
def choose (node : String) (fields : Fields) : Transition → Except RunError Target
  | .direct target => .ok target
  | .conditional branches fallback =>
    match branches.find? fun b => b.1.holds fields with
    | some b => .ok b.2
    | none =>
      match fallback with
      | some target => .ok target
      | none => .error (.noMatchingTransition node)
  | .route field routes fallback =>
    let value := routeText? (fields.at? field)
    match value.bind routes.get? with
    | some target => .ok target
    | none =>
      match fallback with
      | some target => .ok target
      | none => .error (.unmatchedRoute node (value.getD "null"))

end Transition

end WorkflowGraph
