import WorkflowGraph.Config

/-!
# Policies of nodes

What is done around every execution of a node, whatever its kind: how failures
are handled, how long an attempt may take, when the node is skipped, and which
fields it needs.
-/

set_option autoImplicit false

namespace WorkflowGraph

/-- The policies of one node. A node without `skipFields` is never skipped. -/
structure NodePolicy where
  onError : ErrorPolicy
  maxRetries : Option Nat
  timeout : Option Duration
  skipFields : List String
  requires : List String
  deriving DecidableEq, Repr

namespace NodePolicy

/-- The number of attempts that a node has; a node without a number of its own is
retried `retries` times. The number is a word of 64 bits. -/
def maxAttempts (p : NodePolicy) (retries : Nat) : Nat :=
  match p.onError with
  | .retry => (p.maxRetries.getD retries + 1) % Nat.pow 2 64
  | .fallback => 2
  | .fail => 1
  | .skip => 1

end NodePolicy

end WorkflowGraph
