import WorkflowGraph.Compiler
import WorkflowGraph.Json.Writer
import WorkflowGraph.Validator.Options

/-!
# Reports of the validator

A file is checked by compiling it without running it. Every task counts as known, and the
tools that the file declares are bound to placeholders, so only the definition itself is
checked. A report is shown as lines of text or as a JSON object whose fields stand in a
fixed order.
-/

set_option autoImplicit false

namespace WorkflowGraph.Validator

/-- What came out for one file. -/
structure Report where
  path : String
  result : Except (List CompileError) CompiledGraph

/-- The tool that stands for a declared one. -/
def placeholder (name : String) (tool : ToolDecl) : ToolDescription :=
  ⟨tool.binding.getD name, tool.description.getD "", .object [("type", .text "object")]⟩

/-- Tools for everything that the text of a definition declares. -/
def placeholders (text : String) : ToolRegistry :=
  match Definition.parse text with
  | .ok d => .ofList (d.tools.map fun p => placeholder p.1 p.2)
  | .error _ => .empty

/-- The compiler that checks a definition with a text. A strict one has no store, so the
definition has to name one for its interrupts. -/
def compilerFor (files : SourceFiles) (strict : Bool) (text : String) : Compiler where
  executors := fun _ => .ok ⟨"", none⟩
  tools := placeholders text
  loader := .files files
  store := if strict then none else some .memory
  config := none

namespace Report

/-- Check a file; there is no report of one that cannot be read. -/
def ofFile? (files : SourceFiles) (strict : Bool) (path : String) : Option Report :=
  (files.read? path).map fun source =>
    ⟨path, (compilerFor files strict source.text).compileFile files path⟩

/-- Whether the file holds a definition without errors. -/
def isValid (r : Report) : Bool := r.result.isOk

/-- The line of a field of a shape. -/
def shapeLine (name : String) (spec : FieldSpec) : String :=
  "    " ++ Text.padRight 24 name ++ " " ++ Text.padRight 8 spec.type.name ++ " " ++
    Text.padRight 8 spec.merge.name ++
    " written by [" ++ String.intercalate ", " spec.writers ++ "]"

/-- The lines of a report. -/
def lines (o : Options) (r : Report) : List String :=
  match r.result with
  | .ok g =>
    let shape := g.graph.frame.shape.fields.map fun p => shapeLine p.1 p.2
    ["✓ " ++ r.path ++ " (" ++ g.graph.frame.name ++ ")"] ++
      (if o.has .shape then "  state shape:" :: shape else []) ++
      (if o.has .mermaid then ["", g.diagram none] else [])
  | .error errors => ("✗ " ++ r.path) :: errors.map fun e => "    error: " ++ e.message

/-- What is known of a field, as JSON. -/
def specJson (level : Nat) (spec : FieldSpec) : String :=
  Json.members level
    [("type", Json.quote spec.type.name), ("merge", Json.quote spec.merge.name),
      ("writers", Json.prettyAt (level + 1) (Value.texts spec.writers)),
      ("origin", Json.quote spec.origin.name)]

/-- A shape as JSON. -/
def shapeJson (level : Nat) (shape : StateShape) : String :=
  Json.members level
    [("fields", Json.members (level + 1)
      (shape.fields.map fun p => (p.1, specJson (level + 2) p.2)))]

/-- A report as JSON. -/
def json (o : Options) (level : Nat) (r : Report) : String :=
  let about (valid : Bool) : List (String × String) :=
    [("path", Json.quote r.path), ("valid", Json.compact (.bool valid))]
  let errors (es : List String) : String := Json.prettyAt (level + 1) (Value.texts es)
  Json.members level <|
    match r.result with
    | .ok g =>
      about true ++ [("name", Json.quote g.graph.frame.name), ("errors", errors [])] ++
        (if o.has .shape then [("shape", shapeJson (level + 1) g.graph.frame.shape)] else []) ++
        (if o.has .mermaid then [("mermaid", Json.quote (g.diagram none))] else [])
    | .error es => about false ++ [("errors", errors (es.map CompileError.message))]

end Report

end WorkflowGraph.Validator
