import WorkflowGraph.Dict
import WorkflowGraph.Json.Writer

/-!
# Caches of executors

Nodes with the same backend share one executor: what has been created for a backend
is kept under the text of its configuration, and a creation that failed leaves
nothing behind.
-/

set_option autoImplicit false

namespace WorkflowGraph

/-- What has been created so far, under the keys of the backends. -/
structure ExecutorCache (ε : Type) where
  entries : Dict ε

namespace ExecutorCache

variable {ε : Type}

/-- The cache in which nothing has been created. -/
def empty : ExecutorCache ε := ⟨[]⟩

/-- The key of a backend: its text, or `default` for no backend. -/
def key : Option Value → String
  | none => "default"
  | some backend => Json.compact backend

/-- The number of executors that have been created. -/
def size (c : ExecutorCache ε) : Nat := c.entries.length

/-- Find the executor of a backend, and create it where it is not there yet. Whatever the creation
does besides happens then only. -/
def resolveM {m : Type → Type} [Monad m] (create : Option Value → m (Except String ε))
    (c : ExecutorCache ε) (backend : Option Value) : m (Except String ε × ExecutorCache ε) := do
  match c.entries.get? (key backend) with
  | some e => pure (.ok e, c)
  | none =>
    match ← create backend with
    | .ok e => pure (.ok e, ⟨c.entries.put (key backend) e⟩)
    | .error reason => pure (.error reason, c)

/-- Resolve a backend where the creation does nothing besides. -/
def resolve (create : Option Value → Except String ε) (c : ExecutorCache ε)
    (backend : Option Value) : Except String ε × ExecutorCache ε :=
  Id.run (c.resolveM create backend)

end ExecutorCache

end WorkflowGraph
