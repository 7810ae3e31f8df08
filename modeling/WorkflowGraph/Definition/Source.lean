import WorkflowGraph.Error
import WorkflowGraph.FileTree

/-!
# Sources of definitions

A source is the text of a definition together with a key that identifies it. While
nested definitions are compiled, the keys of those that enclose the current one
form a stack; a key that is on the stack already may not be entered again.
-/

set_option autoImplicit false

namespace WorkflowGraph

/-- The text of a definition and the key that identifies it. -/
structure Source where
  key : String
  text : String
  deriving DecidableEq, Repr

/-- Files that definitions are loaded from: the tree that holds them, the path of the
folder that relative paths start at, and the path of the home folder. -/
structure SourceFiles where
  tree : FileTree
  current : String
  home : Option String

namespace SourceFiles

/-- The names on a path, without those that change nothing. -/
def plainNames (path : String) : List String :=
  let names := FileTree.namesOf path
  match names with
  | first :: rest =>
    (if first = "" then [] else [first]) ++ rest.filter fun name => name != "" && name != "."
  | [] => []

/-- The path of the folder that holds what a path leads to. -/
def folderOf (path : String) : Option String :=
  let start := if path.startsWith "/" then "/" else ""
  match plainNames path with
  | [] => none
  | names => some (start ++ String.intercalate "/" names.dropLast)

/-- The path that a reference means in the source with a key. A reference that starts with
`~/` lies in the home folder, and a relative one beside that source. -/
def pathOf (files : SourceFiles) (reference : String) (base : Option String) : String :=
  match Text.after? "~/" reference, files.home with
  | some rest, some home => FileTree.join home rest
  | _, _ =>
    match base.bind folderOf with
    | some folder => FileTree.join folder reference
    | none => reference

/-- Load the file that a path leads to. Its canonical path is the key. -/
def read? (files : SourceFiles) (path : String) : Option Source := do
  if path.isEmpty then none
  let place ← files.tree.locate? (FileTree.join files.current path)
  let text ← files.tree.read? place
  some ⟨FileTree.pathOf place, text⟩

/-- Load a reference in the source with a key. -/
def load (files : SourceFiles) (reference : String) (base : Option String) :
    Except SourceFault Source :=
  match files.read? (files.pathOf reference base) with
  | some source => .ok source
  | none => .error .unreadable

end SourceFiles

/-- Where referenced definitions are found: texts under their references, or files. -/
inductive SourceLoader where
  | texts (sources : Dict String)
  | files (files : SourceFiles)

namespace SourceLoader

/-- Load a reference in the source with a key. -/
def load (l : SourceLoader) (reference : String) (base : Option String) :
    Except SourceFault Source :=
  match l with
  | .texts sources =>
    match sources.get? reference with
    | some text => .ok ⟨reference, text⟩
    | none => .error (.unknown reference)
  | .files f => f.load reference base

/-- The number of sources that can be loaded. -/
def count : SourceLoader → Nat
  | .texts sources => sources.length
  | .files f => f.tree.count

end SourceLoader

/-- The keys of the definitions that are being compiled, outermost first. -/
structure SourceStack where
  keys : List String
  deriving DecidableEq, Repr

namespace SourceStack

/-- The stack below which nothing is being compiled. -/
def empty : SourceStack := ⟨[]⟩

/-- The stack whose outermost definition has a key. -/
def rootedAt (key : String) : SourceStack := ⟨[key]⟩

/-- The key of the definition that is being compiled. -/
def current? (s : SourceStack) : Option String := s.keys.getLast?

/-- The number of definitions that are being compiled. -/
def depth (s : SourceStack) : Nat := s.keys.length

/-- Start to compile a definition, unless it is being compiled already. -/
def enter (s : SourceStack) (key : String) : Except DefinitionError SourceStack :=
  if s.keys.contains key then .error (.circularSubgraph (s.keys ++ [key]))
  else .ok ⟨s.keys ++ [key]⟩

/-- Finish the definition that was entered last. -/
def exit (s : SourceStack) : SourceStack := ⟨s.keys.dropLast⟩

end SourceStack

end WorkflowGraph
