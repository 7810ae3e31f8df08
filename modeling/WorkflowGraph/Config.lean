import WorkflowGraph.Definition.Basic

/-!
# Run configurations

How many steps a run may take, how many tasks of a map run side by side, when
checkpoints are saved and kept, and how failed nodes are retried.
-/

set_option autoImplicit false

namespace WorkflowGraph

/-- How often a failed node is tried again, and how long to wait before. -/
structure RetryPolicy where
  maxRetries : Nat
  backoffBase : Duration
  backoffMax : Duration
  deriving DecidableEq, Repr

namespace RetryPolicy

/-- A policy with the standard delays. -/
def ofRetries (n : Nat) : RetryPolicy := ⟨n, .ofMillis 100, .ofSeconds 10⟩

/-- The policy without any retry and any delay. -/
def never : RetryPolicy := ⟨0, ⟨0⟩, .ofSeconds 10⟩

/-- The largest factor that a delay grows by. -/
def maxFactor : Nat := Nat.pow 2 32 - 1

/-- The factor by which the delay before a retry is longer than the first one. It
doubles with every retry, and retries are counted in words of 32 bits. -/
def factor (attempt : Nat) : Nat :=
  let n := attempt % Nat.pow 2 32
  if n < 32 then Nat.pow 2 n else maxFactor

/-- The delay before a retry; the first retry has number zero. -/
def delay (p : RetryPolicy) (attempt : Nat) : Duration :=
  (p.backoffBase.times (factor attempt)).least p.backoffMax

/-- The policy as a value. -/
def toValue (p : RetryPolicy) : Value :=
  .record [("max_retries", .ofNat p.maxRetries), ("backoff_base", p.backoffBase.value),
    ("backoff_max", p.backoffMax.value)]

end RetryPolicy

/-- The configuration of a run. Where `parallelism` is not set, the number of
processors decides. -/
structure RunConfig where
  maxSteps : Nat
  parallelism : Option Nat
  checkpointInterval : Nat
  checkpointRetention : Option Nat
  nodeTimeout : Option Duration
  workflowTimeout : Option Duration
  retry : RetryPolicy
  deriving DecidableEq, Repr

namespace RunConfig

/-- The configuration that a definition's defaults describe. -/
def ofDefaults (d : Defaults) : RunConfig where
  maxSteps := d.maxSteps
  parallelism := d.parallelism.map (max 1)
  checkpointInterval := d.checkpointInterval
  checkpointRetention := d.checkpointRetention.map (max 1)
  nodeTimeout := d.nodeTimeout
  workflowTimeout := d.workflowTimeout
  retry := ⟨d.maxRetries, d.backoffBase, d.backoffMax⟩

/-- The standard configuration. -/
def standard : RunConfig := ofDefaults .standard

/-- Set the number of map tasks that run side by side, which is at least one. -/
def withParallelism (c : RunConfig) (n : Nat) : RunConfig :=
  { c with parallelism := some (max 1 n) }

/-- Set the number of checkpoints that are kept, which is at least one. -/
def withRetention (c : RunConfig) (n : Nat) : RunConfig :=
  { c with checkpointRetention := some (max 1 n) }

/-- Whether a checkpoint is due after a step. -/
def isDue (c : RunConfig) (step : Nat) : Bool :=
  0 < c.checkpointInterval && 0 < step && step % c.checkpointInterval == 0

/-- The configuration as a value. -/
def toValue (c : RunConfig) : Value :=
  .record [("max_steps", .ofNat c.maxSteps), ("parallelism", .orNull Value.ofNat c.parallelism),
    ("checkpoint_interval", .ofNat c.checkpointInterval),
    ("checkpoint_retention", .orNull Value.ofNat c.checkpointRetention),
    ("node_timeout", .orNull Duration.value c.nodeTimeout),
    ("workflow_timeout", .orNull Duration.value c.workflowTimeout),
    ("retry_policy", c.retry.toValue)]

end RunConfig

end WorkflowGraph
