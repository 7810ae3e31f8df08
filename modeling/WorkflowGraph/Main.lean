import WorkflowGraph.Validator.Reference
import WorkflowGraph.Validator.Run

/-!
# The program

The program reads the files that it is to check, together with those that they name, and
hands them to the validator. Nothing is decided here.
-/

set_option autoImplicit false

namespace WorkflowGraph

/-- Read files, and the files that they name, into a tree. A file that cannot be read stays
out of it. -/
partial def gather (files : SourceFiles) : List String → IO SourceFiles
  | [] => pure files
  | path :: rest =>
    if files.has path then gather files rest
    else
      try
        let text ← IO.FS.readFile (files.absolute path)
        let files := files.add path text
        gather files (files.needed path text ++ rest)
      catch _ => gather files rest

/-- Check the files that the arguments name. -/
def program (arguments : List String) : IO UInt32 := do
  let current ← IO.currentDir
  let home ← IO.getEnv "HOME"
  let paths := match Validator.Options.read arguments with
    | .ok o => o.files
    | .error _ => []
  let files ← gather ⟨.empty, current.toString, home⟩ paths
  let r := Validator.run files arguments
  IO.print r.output
  match r.complaint with
  | some text => IO.eprint text
  | none => pure ()
  pure r.code.toUInt32

end WorkflowGraph

/-- The program. -/
def main (arguments : List String) : IO UInt32 := WorkflowGraph.program arguments
