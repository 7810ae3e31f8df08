import WorkflowGraph.Definition.Source
import WorkflowGraph.Yaml.Node
import WorkflowGraph.Yaml.Document

/-!
# Files that a definition needs

A definition names the files of its subgraphs under the key `graph`. Before it is checked,
these files are put into the tree that definitions are loaded from, and so are the files
that they name in turn. Too many files do no harm, so every text under that key counts.
-/

set_option autoImplicit false

namespace WorkflowGraph

namespace Yaml.Node

mutual

/-- The texts under a key anywhere in a node. -/
def textsUnder (key : String) : Node → List String
  | .sequence items => textsUnderItems key items
  | .mapping entries => textsUnderEntries key entries
  | .tagged _ inner => inner.textsUnder key
  | _ => []

/-- The texts under a key anywhere in the items of a sequence. -/
def textsUnderItems (key : String) : List Node → List String
  | [] => []
  | n :: rest => n.textsUnder key ++ textsUnderItems key rest

/-- The texts under a key anywhere in the entries of a mapping. -/
def textsUnderEntries (key : String) : List (Node × Node) → List String
  | [] => []
  | (.text name, .text s) :: rest =>
    (if name = key then [s] else []) ++ textsUnderEntries key rest
  | (_, n) :: rest => n.textsUnder key ++ textsUnderEntries key rest

end

end Yaml.Node

namespace SourceFiles

/-- The absolute path of a file. -/
def absolute (files : SourceFiles) (path : String) : String := FileTree.join files.current path

/-- Whether a file is in the tree. -/
def has (files : SourceFiles) (path : String) : Bool :=
  files.tree.has (FileTree.place (files.absolute path))

/-- Put a file into the tree. -/
def add (files : SourceFiles) (path text : String) : SourceFiles :=
  let tree := files.tree.write? (FileTree.place (files.absolute path)) (.plain text)
  { files with tree := tree.getD files.tree }

/-- The paths of the files that the text of a definition names. -/
def needed (files : SourceFiles) (path text : String) : List String :=
  let references := ((Yaml.read? text).map fun n => n.textsUnder "graph").getD []
  references.map fun reference => files.pathOf reference (some (files.absolute path))

end SourceFiles

end WorkflowGraph
