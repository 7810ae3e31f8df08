/-!
# Options of the validator

The arguments of the validator are flags and the names of the files to check. They are
read from left to right, and the first one that settles the matter does: a request for
help or for the version, or a mistake. After `--` every argument is the name of a file.
-/

set_option autoImplicit false

namespace WorkflowGraph.Validator

/-- What can be switched on. -/
inductive Flag where
  | shape
  | mermaid
  | strict
  | json
  deriving DecidableEq, Repr

namespace Flag

/-- The long name of a flag. -/
def name : Flag → String
  | .shape => "shape"
  | .mermaid => "mermaid"
  | .strict => "strict"
  | .json => "json"

/-- The flag with a long name. -/
def ofName? : String → Option Flag
  | "shape" => some .shape
  | "mermaid" => some .mermaid
  | "strict" => some .strict
  | "json" => some .json
  | _ => none

/-- The flag with a short name. -/
def ofLetter? : Char → Option Flag
  | 's' => some .strict
  | _ => none

end Flag

/-- What is wrong with the arguments. -/
inductive Misuse where
  | unexpected (argument : String)
  | repeated (flag : Flag)
  | emptyName
  | noFiles
  deriving DecidableEq, Repr

/-- The text that tells of a mistake. -/
def Misuse.message : Misuse → String
  | .unexpected argument => "unexpected argument '" ++ argument ++ "' found"
  | .repeated flag => "the argument '--" ++ flag.name ++ "' cannot be used multiple times"
  | .emptyName => "a value is required for '<FILES>...' but none was supplied"
  | .noFiles => "the following required arguments were not provided: <FILES>..."

/-- Why nothing is checked. -/
inductive Stop where
  | help
  | version
  | misuse (fault : Misuse)
  deriving DecidableEq, Repr

/-- The flags that are set and the files to check, in the order of the arguments. -/
structure Options where
  flags : List Flag
  files : List String
  deriving DecidableEq, Repr

namespace Options

/-- The options before any argument is read. -/
def empty : Options := ⟨[], []⟩

/-- Whether a flag is set. -/
def has (o : Options) (flag : Flag) : Bool := o.flags.contains flag

/-- Set a flag, which may be done once. -/
def set (o : Options) (flag : Flag) : Except Stop Options :=
  if o.has flag then .error (.misuse (.repeated flag))
  else .ok { o with flags := o.flags ++ [flag] }

/-- Add the name of a file. -/
def addFile (o : Options) (name : String) : Except Stop Options :=
  if name.isEmpty then .error (.misuse .emptyName)
  else .ok { o with files := o.files ++ [name] }

/-- Read the letters behind a single dash. -/
def readLetters (o : Options) : List Char → Except Stop Options
  | [] => .ok o
  | 'h' :: _ => .error .help
  | 'V' :: _ => .error .version
  | c :: rest =>
    match Flag.ofLetter? c with
    | none => .error (.misuse (.unexpected ("-" ++ String.singleton c)))
    | some flag =>
      match o.set flag with
      | .ok o => o.readLetters rest
      | .error stop => .error stop

/-- Read the name behind two dashes. -/
def readName (o : Options) (name : String) : Except Stop Options :=
  if name = "help" then .error .help
  else if name = "version" then .error .version
  else
    match Flag.ofName? name with
    | some flag => o.set flag
    | none => .error (.misuse (.unexpected ("--" ++ name)))

/-- Read an argument in front of `--`. A single dash is the name of a file. -/
def readArgument (o : Options) (argument : String) : Except Stop Options :=
  match argument.toList with
  | '-' :: '-' :: name => o.readName (String.ofList name)
  | '-' :: c :: letters => o.readLetters (c :: letters)
  | _ => o.addFile argument

/-- Read arguments. -/
def readAll (o : Options) : List String → Except Stop Options
  | [] => .ok o
  | argument :: rest =>
    if argument = "--" then rest.foldlM addFile o
    else
      match o.readArgument argument with
      | .ok o => o.readAll rest
      | .error stop => .error stop

/-- Read the arguments of a call, which name at least one file. -/
def read (arguments : List String) : Except Stop Options :=
  match empty.readAll arguments with
  | .ok o => if o.files.isEmpty then .error (.misuse .noFiles) else .ok o
  | .error stop => .error stop

end Options

end WorkflowGraph.Validator
