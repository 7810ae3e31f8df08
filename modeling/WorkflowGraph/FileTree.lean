import WorkflowGraph.Dict
import WorkflowGraph.Text.Blank

/-!
# File trees

The files that definitions are loaded from and that checkpoints are kept in. A tree
is a file or a folder of named trees; a place in it is given by the names on the way
to it. No two names of a folder are equal, and there are no links, so every place has
one canonical path.
-/

set_option autoImplicit false

namespace WorkflowGraph

/-- What a file holds: a text as it is, or the compressed form of one. -/
inductive Content where
  | plain (text : String)
  | compressed (text : String)
  deriving DecidableEq, Repr

/-- A file, or a folder of files and folders. -/
inductive FileTree where
  | file (content : Content)
  | folder (entries : List (String × FileTree))

namespace FileTree

/-- The folder without entries. -/
def empty : FileTree := .folder []

/-- Whether a tree is a folder. -/
def isFolder : FileTree → Bool
  | .folder _ => true
  | .file _ => false

/-- The tree at a place. -/
def find? (t : FileTree) : List String → Option FileTree
  | [] => some t
  | name :: rest =>
    match t with
    | .folder entries => (Dict.get? entries name).bind fun child => child.find? rest
    | .file _ => none

/-- Whether there is something at a place. -/
def has (t : FileTree) (place : List String) : Bool := (t.find? place).isSome

/-- The longest name that an entry can have, in bytes. -/
def maxName : Nat := 255

/-- Put a tree at a place, over what was there. The folder that holds the place must
exist already. -/
def put? (t : FileTree) (place : List String) (child : FileTree) : Option FileTree :=
  match t, place with
  | .folder entries, [name] =>
    if name.utf8ByteSize ≤ maxName then some (.folder (Dict.put entries name child)) else none
  | .folder entries, name :: rest =>
    match (Dict.get? entries name).bind fun inner => inner.put? rest child with
    | some inner => some (.folder (Dict.put entries name inner))
    | none => none
  | _, _ => none

/-- Create the folder at a place, and all those on the way to it that are missing. -/
def makeFolder? (t : FileTree) : List String → Option FileTree
  | [] => if t.isFolder then some t else none
  | name :: rest =>
    match t with
    | .folder entries =>
      if name.utf8ByteSize ≤ maxName then
        match ((Dict.get? entries name).getD empty).makeFolder? rest with
        | some inner => some (.folder (Dict.put entries name inner))
        | none => none
      else none
    | .file _ => none

/-- Remove what is at a place. -/
def drop (t : FileTree) : List String → FileTree
  | [] => t
  | [name] =>
    match t with
    | .folder entries => .folder (Dict.drop entries name)
    | .file _ => t
  | name :: rest =>
    match t with
    | .folder entries =>
      match Dict.get? entries name with
      | some inner => .folder (Dict.put entries name (inner.drop rest))
      | none => t
    | .file _ => t

/-- Put a file at a place, and create the folders on the way to it. -/
def write? (t : FileTree) (place : List String) (content : Content) : Option FileTree :=
  match t.makeFolder? place.dropLast with
  | some t =>
    if (t.find? place).any isFolder then none else t.put? place (.file content)
  | none => none

mutual

/-- The paths of all files of a tree, below the path of the tree itself. -/
def files (path : String) : FileTree → List String
  | .file _ => [path]
  | .folder entries => filesOf (if path.isEmpty then "" else path ++ "/") entries

/-- The paths of all files of a list of trees. -/
def filesOf (start : String) : List (String × FileTree) → List String
  | [] => []
  | (name, t) :: rest => files (start ++ name) t ++ filesOf start rest

end

/-- The number of files of a tree. -/
def count (t : FileTree) : Nat := (t.files "").length

/-- The names on a written path. -/
def namesOf (path : String) : List String := Text.split '/' path

/-- The place that a written path leads to, where every name on it is taken for that of
a folder. -/
def place (path : String) : List String :=
  (namesOf path).foldl step []
where
  /-- One name of a path. -/
  step (done : List String) (name : String) : List String :=
    if name = "" ∨ name = "." then done
    else if name = ".." then done.dropLast
    else done ++ [name]

/-- Follow the names of a path from a folder to the place that it leads to. All names
but the last are those of folders. -/
def follow? (t : FileTree) (start : List String) : List String → Option (List String)
  | [] => if t.has start then some start else none
  | name :: rest =>
    if (t.find? start).any isFolder then
      if name = "" ∨ name = "." then t.follow? start rest
      else if name = ".." then t.follow? start.dropLast rest
      else t.follow? (start ++ [name]) rest
    else none

/-- The longest path, in bytes. -/
def maxPath : Nat := 4095

/-- Whether a text can be a path at all. -/
def isPath (path : String) : Bool :=
  !path.isEmpty && decide (path.utf8ByteSize ≤ maxPath) && !path.toList.contains '\x00'

/-- The place that an absolute path leads to, if there is something there. -/
def locate? (t : FileTree) (path : String) : Option (List String) :=
  if isPath path then t.follow? [] (namesOf path) else none

/-- Create the folders that are missing on the way along the names of a path. -/
def makeAlong? (t : FileTree) (start : List String) : List String → Option FileTree
  | [] => some t
  | name :: rest =>
    if name = "" ∨ name = "." then t.makeAlong? start rest
    else if name = ".." then t.makeAlong? start.dropLast rest
    else
      match t.makeFolder? (start ++ [name]) with
      | some t => t.makeAlong? (start ++ [name]) rest
      | none => none

/-- Create the folder at a path, and all those on the way to it that are missing. -/
def makeFolders? (t : FileTree) (path : String) : Option FileTree :=
  if isPath path then t.makeAlong? [] (namesOf path) else none

/-- A path below a folder. An absolute path stands for itself. -/
def join (folder path : String) : String :=
  if path.startsWith "/" || folder.isEmpty then path
  else if folder.endsWith "/" then folder ++ path
  else folder ++ "/" ++ path

/-- The absolute path of a place. -/
def pathOf (place : List String) : String := "/" ++ String.intercalate "/" place

/-- The text of the file at a place. -/
def read? (t : FileTree) (place : List String) : Option String :=
  match t.find? place with
  | some (.file (.plain text)) => some text
  | _ => none

end FileTree

end WorkflowGraph
