import WorkflowGraph.Checkpoint.Basic

/-!
# Checkpoints in memory

For every thread the checkpoints in the order of their steps. A thread whose last
checkpoint goes is forgotten.
-/

set_option autoImplicit false

namespace WorkflowGraph

/-- The checkpoints of one thread, with rising steps. -/
abbrev History : Type := List (Nat × Checkpoint)

namespace History

/-- Keep a checkpoint, over one of the same step. -/
def put (h : History) (c : Checkpoint) : History :=
  match h with
  | [] => [(c.step, c)]
  | (step, old) :: rest =>
    if c.step < step then (c.step, c) :: (step, old) :: rest
    else if c.step = step then (c.step, c) :: rest
    else (step, old) :: put rest c

/-- The checkpoint of a step. -/
def get? (h : History) (step : Nat) : Option Checkpoint :=
  (h.find? fun p => p.1 == step).map Prod.snd

/-- Forget a step. -/
def drop (h : History) (step : Nat) : History := h.filter fun p => p.1 != step

/-- The checkpoint with the greatest step. -/
def latest? (h : History) : Option Checkpoint := h.getLast?.map Prod.snd

/-- The steps, rising. -/
def steps (h : History) : List Nat := h.map Prod.fst

end History

/-- The checkpoints of all threads. -/
structure MemoryStore where
  threads : Dict History

namespace MemoryStore

/-- The store without any checkpoint. -/
def empty : MemoryStore := ⟨[]⟩

/-- The checkpoints of a thread. -/
def historyOf (m : MemoryStore) (thread : String) : History := (m.threads.get? thread).getD []

/-- Keep a checkpoint. -/
def save (m : MemoryStore) (c : Checkpoint) : MemoryStore :=
  ⟨m.threads.put c.thread ((m.historyOf c.thread).put c)⟩

/-- The latest checkpoint of a thread. -/
def load (m : MemoryStore) (thread : String) : Option Checkpoint := (m.historyOf thread).latest?

/-- The checkpoint of a thread at a step. -/
def loadStep (m : MemoryStore) (thread : String) (step : Nat) : Option Checkpoint :=
  (m.historyOf thread).get? step

/-- The steps of a thread, rising. -/
def history (m : MemoryStore) (thread : String) : List Nat := (m.historyOf thread).steps

/-- Forget a thread. -/
def delete (m : MemoryStore) (thread : String) : MemoryStore := ⟨m.threads.drop thread⟩

/-- Forget a step of a thread. -/
def deleteStep (m : MemoryStore) (thread : String) (step : Nat) : MemoryStore :=
  match m.threads.get? thread with
  | none => m
  | some h =>
    let rest := h.drop step
    if rest.isEmpty then ⟨m.threads.drop thread⟩ else ⟨m.threads.put thread rest⟩

/-- The threads that have a checkpoint, in rising order. -/
def threadIds (m : MemoryStore) : List String := m.threads.names

/-- Keep the `keep` latest steps of a thread; gives the number of steps that are gone. -/
def prune (m : MemoryStore) (thread : String) (keep : Nat) : Nat × MemoryStore :=
  let steps := m.history thread
  let old := steps.take (steps.length - keep)
  (old.length, old.foldl (fun m step => m.deleteStep thread step) m)

end MemoryStore

end WorkflowGraph
