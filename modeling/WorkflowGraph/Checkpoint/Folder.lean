import WorkflowGraph.Checkpoint.Basic
import WorkflowGraph.Error
import WorkflowGraph.FileTree
import WorkflowGraph.Json.Reader
import WorkflowGraph.Json.Writer
import WorkflowGraph.Text.Percent

/-!
# Checkpoints in a folder

Every thread has a folder, named by the percent-encoded form of its id, and every
checkpoint a file in it, named by its step. What the folder holds besides is looked at
too: a step counts as kept when a file bears its number, whatever follows the number.
-/

set_option autoImplicit false

namespace WorkflowGraph

/-- The path of a folder for checkpoints, and whether its files are compressed. -/
structure FolderStore where
  path : String
  compression : Bool
  deriving DecidableEq, Repr

namespace FolderStore

/-- What the names of checkpoint files start with. -/
def nameStart : String := "checkpoint_"

/-- What the names of files end with that are being written. -/
def draftEnd : String := ".tmp"

/-- The number of a step, at least eight digits wide. -/
def stepText (step : Nat) : String :=
  let digits := toString step
  String.ofList (List.replicate (8 - digits.length) '0') ++ digits

/-- The name of the file of a step. -/
def fileName (f : FolderStore) (step : Nat) : String :=
  nameStart ++ stepText step ++ if f.compression then ".json.zst" else ".json"

/-- The name of the file of a step while it is being written. -/
def draftName (step : Nat) : String := nameStart ++ stepText step ++ draftEnd

/-- The step whose number a file bears. -/
def stepOf? (name : String) : Option Nat :=
  if name.endsWith draftEnd then none
  else (Text.after? nameStart name).bind fun rest => index? ((Text.split '.' rest).headD "")

/-- The path of the folder of a thread. The thread without a name has the store's own folder. -/
def threadPath (f : FolderStore) (thread : String) : String :=
  FileTree.join f.path (Text.Percent.encode thread)

/-- The path of the file of a step of a thread. -/
def filePath (f : FolderStore) (thread : String) (step : Nat) : String :=
  FileTree.join (f.threadPath thread) (f.fileName step)

/-- The path of the file of a step of a thread while it is being written. -/
def draftPath (f : FolderStore) (thread : String) (step : Nat) : String :=
  FileTree.join (f.threadPath thread) (draftName step)

/-- What a path leads to, and its place. -/
def seek? (t : FileTree) (path : String) : Option (List String × FileTree) :=
  (t.locate? path).bind fun place => (t.find? place).map fun found => (place, found)

/-- Put a number into a rising list, where it is not there yet. -/
def insertStep (step : Nat) : List Nat → List Nat
  | [] => [step]
  | s :: rest =>
    if step < s then step :: s :: rest
    else if step = s then s :: rest
    else s :: insertStep step rest

/-- The steps that the names of a folder bear, rising and each once. -/
def stepsIn (entries : List (String × FileTree)) : List Nat :=
  (entries.filterMap fun e => stepOf? e.1).foldl (fun steps s => insertStep s steps) []

/-- The steps of a thread, rising. -/
def history (f : FolderStore) (t : FileTree) (thread : String) : Except StoreError (List Nat) :=
  match seek? t (f.threadPath thread) with
  | none => .ok []
  | some (_, .folder entries) => .ok (stepsIn entries)
  | some (_, .file _) => .error .readDirectory

/-- The text that a file holds, as a store reads it. -/
def textOf (f : FolderStore) : Content → Except StoreError String
  | .plain text => if f.compression then .error .decompression else .ok text
  | .compressed text => if f.compression then .ok text else .error .deserialization

/-- What a store writes for a text. -/
def contentOf (f : FolderStore) (text : String) : Content :=
  if f.compression then .compressed text else .plain text

/-- The checkpoint in a text. -/
def checkpointOf (text : String) : Except StoreError Checkpoint :=
  match (Json.readForm? Checkpoint.form text).bind Checkpoint.ofValue? with
  | some c => .ok c
  | none => .error .deserialization

/-- The checkpoint of a thread at a step. -/
def loadStep (f : FolderStore) (t : FileTree) (thread : String) (step : Nat) :
    Except StoreError (Option Checkpoint) :=
  match seek? t (f.filePath thread step) with
  | none => .ok none
  | some (_, .folder _) => .error .readFile
  | some (_, .file content) => do
    let text ← f.textOf content
    let c ← checkpointOf text
    pure (some c)

/-- The latest checkpoint of a thread. -/
def load (f : FolderStore) (t : FileTree) (thread : String) :
    Except StoreError (Option Checkpoint) := do
  let steps ← f.history t thread
  match steps.getLast? with
  | some step => f.loadStep t thread step
  | none => pure none

/-- Keep a checkpoint: write it into a file of its own, which then takes the place of the
file of the step. Gives the tree also where this fails. -/
def save (f : FolderStore) (t : FileTree) (c : Checkpoint) : Except StoreError Unit × FileTree :=
  let content := FileTree.file (f.contentOf (Json.pretty c.toValue))
  match t.makeFolders? (f.threadPath c.thread) with
  | none => (.error .createDirectory, t)
  | some t =>
    let folder := (t.locate? (f.threadPath c.thread)).getD []
    let draft := folder ++ [draftName c.step]
    let place := folder ++ [f.fileName c.step]
    if !FileTree.isPath (f.draftPath c.thread c.step) ∨ (t.find? draft).any FileTree.isFolder then
      (.error .createFile, t)
    else
      match t.put? draft content with
      | none => (.error .createFile, t)
      | some written =>
        if !FileTree.isPath (f.filePath c.thread c.step) ∨
            (t.find? place).any FileTree.isFolder then
          (.error .renameFile, written)
        else
          match (written.drop draft).put? place content with
          | none => (.error .renameFile, written)
          | some t => (.ok (), t)

/-- Forget a thread. -/
def delete (f : FolderStore) (t : FileTree) (thread : String) :
    Except StoreError Unit × FileTree :=
  match seek? t (f.threadPath thread) with
  | none => (.ok (), t)
  | some (place, .folder _) => (.ok (), t.drop place)
  | some (_, .file _) => (.error .deleteDirectory, t)

/-- Forget a step of a thread. -/
def deleteStep (f : FolderStore) (t : FileTree) (thread : String) (step : Nat) :
    Except StoreError Unit × FileTree :=
  match seek? t (f.filePath thread step) with
  | none => (.ok (), t)
  | some (place, .file _) => (.ok (), t.drop place)
  | some (_, .folder _) => (.error .deleteFile, t)

/-- Forget steps of a thread, up to the first that cannot be forgotten. -/
def deleteSteps (f : FolderStore) (thread : String) :
    FileTree → List Nat → Except StoreError Unit × FileTree
  | t, [] => (.ok (), t)
  | t, step :: rest =>
    match f.deleteStep t thread step with
    | (.ok _, t) => deleteSteps f thread t rest
    | (.error e, t) => (.error e, t)

/-- Keep the `keep` latest steps of a thread; gives the number of steps that are gone. -/
def prune (f : FolderStore) (t : FileTree) (thread : String) (keep : Nat) :
    Except StoreError Nat × FileTree :=
  match f.history t thread with
  | .error e => (.error e, t)
  | .ok steps =>
    let old := steps.take (steps.length - keep)
    let (done, t) := f.deleteSteps thread t old
    (done.map fun _ => old.length, t)

/-- The threads whose folders there are, in rising order. -/
def threadIds (f : FolderStore) (t : FileTree) : Except StoreError (List String) :=
  match seek? t f.path with
  | none => .ok []
  | some (_, .folder entries) =>
    .ok ((entries.filterMap fun e => Text.Percent.decode? e.1).mergeSort fun a b => decide (a ≤ b))
  | some (_, .file _) => .error .readDirectory

end FolderStore

end WorkflowGraph
