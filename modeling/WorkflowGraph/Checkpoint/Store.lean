import WorkflowGraph.Checkpoint.Folder
import WorkflowGraph.Checkpoint.Memory
import WorkflowGraph.Definition.Basic

/-!
# Checkpoint stores

A store says where the checkpoints of a graph are kept: in memory, or in a folder. What
is kept there is the storage, on which every operation of a store works.
-/

set_option autoImplicit false

namespace WorkflowGraph

/-- Where checkpoints are kept. -/
inductive Store where
  | memory
  | folder (f : FolderStore)
  deriving DecidableEq, Repr

/-- What is kept in memory and in files. -/
structure Storage where
  memory : MemoryStore
  files : FileTree

/-- The storage in which there is nothing. -/
def Storage.empty : Storage := ⟨.empty, .empty⟩

namespace Store

/-- The store that a configuration describes. Databases are not available. -/
def ofConfig : StoreConfig → Except StoreError Store
  | .memory => .ok .memory
  | .file path compression => .ok (.folder ⟨path, compression⟩)
  | .database _ _ => .error .databaseUnavailable

/-- Keep a checkpoint, over one of the same thread and step. -/
def save (store : Store) (s : Storage) (c : Checkpoint) : Except StoreError Unit × Storage :=
  match store with
  | .memory => (.ok (), { s with memory := s.memory.save c })
  | .folder f =>
    let (done, files) := f.save s.files c
    (done, { s with files })

/-- The latest checkpoint of a thread. -/
def load (store : Store) (s : Storage) (thread : String) : Except StoreError (Option Checkpoint) :=
  match store with
  | .memory => .ok (s.memory.load thread)
  | .folder f => f.load s.files thread

/-- The checkpoint of a thread at a step. -/
def loadStep (store : Store) (s : Storage) (thread : String) (step : Nat) :
    Except StoreError (Option Checkpoint) :=
  match store with
  | .memory => .ok (s.memory.loadStep thread step)
  | .folder f => f.loadStep s.files thread step

/-- The steps of a thread, rising. -/
def history (store : Store) (s : Storage) (thread : String) : Except StoreError (List Nat) :=
  match store with
  | .memory => .ok (s.memory.history thread)
  | .folder f => f.history s.files thread

/-- Forget a thread. -/
def delete (store : Store) (s : Storage) (thread : String) : Except StoreError Unit × Storage :=
  match store with
  | .memory => (.ok (), { s with memory := s.memory.delete thread })
  | .folder f =>
    let (done, files) := f.delete s.files thread
    (done, { s with files })

/-- Forget a step of a thread. -/
def deleteStep (store : Store) (s : Storage) (thread : String) (step : Nat) :
    Except StoreError Unit × Storage :=
  match store with
  | .memory => (.ok (), { s with memory := s.memory.deleteStep thread step })
  | .folder f =>
    let (done, files) := f.deleteStep s.files thread step
    (done, { s with files })

/-- Keep the `keep` latest steps of a thread; gives the number of steps that are gone. -/
def prune (store : Store) (s : Storage) (thread : String) (keep : Nat) :
    Except StoreError Nat × Storage :=
  match store with
  | .memory =>
    let (gone, m) := s.memory.prune thread keep
    (.ok gone, { s with memory := m })
  | .folder f =>
    let (gone, files) := f.prune s.files thread keep
    (gone, { s with files })

/-- The threads of a store, in rising order. -/
def threadIds (store : Store) (s : Storage) : Except StoreError (List String) :=
  match store with
  | .memory => .ok s.memory.threadIds
  | .folder f => f.threadIds s.files

end Store

end WorkflowGraph
