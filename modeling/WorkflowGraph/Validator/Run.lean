import WorkflowGraph.Validator.Report

/-!
# Runs of the validator

A run reads its arguments, checks the files that they name and says what came out. Its
exit code is 0 if all definitions are valid, 1 if one is not, and 2 if nothing could be
said because of the arguments or of a file that cannot be read.
-/

set_option autoImplicit false

namespace WorkflowGraph.Validator

/-- What a run leaves behind: its exit code, its output, and its complaint. -/
structure Outcome where
  code : Nat
  output : String
  complaint : Option String
  deriving DecidableEq, Repr

/-- The name of the program. -/
def programName : String := "workflow-validator"

/-- The version of the program. -/
def programVersion : String := "0.1.0"

/-- Lines of text, each with its end. -/
def unlines (lines : List String) : String := String.join (lines.map fun line => line ++ "\n")

/-- How the program is called. -/
def usage : String := "Usage: " ++ programName ++ " [OPTIONS] <FILES>..."

/-- What the program tells of itself. -/
def helpText : String :=
  unlines
    ["Compiles workflow definitions and reports every error found", "", usage, "",
      "Arguments:",
      "  <FILES>...  Workflow definition files (YAML or JSON)", "",
      "Options:",
      "      --shape    Print the inferred state shape",
      "      --mermaid  Print a Mermaid flowchart of each valid workflow",
      "  -s, --strict   Do not supply an in-memory checkpointer for interrupt nodes",
      "      --json     Output results as JSON",
      "  -h, --help     Print help",
      "  -V, --version  Print version"]

/-- The outcome where nothing is checked. -/
def Stop.outcome : Stop → Outcome
  | .help => ⟨0, helpText, none⟩
  | .version => ⟨0, programName ++ " " ++ programVersion ++ "\n", none⟩
  | .misuse fault => ⟨2, "", some (unlines ["error: " ++ fault.message, "", usage])⟩

/-- The line that counts the files. -/
def summary (reports : List Report) : String :=
  let valid := (reports.filter Report.isValid).length
  "Validated " ++ toString reports.length ++ " file(s): " ++ toString valid ++ " valid, " ++
    toString (reports.length - valid) ++ " invalid"

/-- The reports as the options want them. -/
def render (o : Options) (reports : List Report) : String :=
  if o.has .json then unlines [Json.block "[" "]" 0 (reports.map (Report.json o 1))]
  else unlines (reports.flatMap (Report.lines o) ++ ["", summary reports])

/-- Check files in turn, as long as they can be read; otherwise give the first that
cannot. -/
def check (files : SourceFiles) (strict : Bool) : List String → Except String (List Report)
  | [] => .ok []
  | path :: rest =>
    match Report.ofFile? files strict path with
    | none => .error path
    | some report => (check files strict rest).map fun reports => report :: reports

/-- Run the validator on files. -/
def run (files : SourceFiles) (arguments : List String) : Outcome :=
  match Options.read arguments with
  | .error stop => stop.outcome
  | .ok o =>
    match check files (o.has .strict) o.files with
    | .error path => ⟨2, "", some (unlines ["error: cannot read " ++ path])⟩
    | .ok reports => ⟨if reports.all Report.isValid then 0 else 1, render o reports, none⟩

end WorkflowGraph.Validator
