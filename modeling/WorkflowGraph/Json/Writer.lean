import WorkflowGraph.Decimal.Layout
import WorkflowGraph.Value

/-!
# Written JSON

`Json.compact` writes a value without any blank, `Json.pretty` with two spaces
of indentation per level and one item to a line. Text outside the control
characters is kept as it is, so the written form is not limited to ASCII.
-/

set_option autoImplicit false

namespace WorkflowGraph.Json

/-- A hexadecimal digit in lower case. -/
def hexDigit (n : Nat) : Char :=
  if n < 10 then Char.ofNat (48 + n) else Char.ofNat (87 + n)

/-- The written form of one character of a text. -/
def escape (c : Char) : String :=
  if c = '"' then "\\\""
  else if c = '\\' then "\\\\"
  else if c = '\x08' then "\\b"
  else if c = '\t' then "\\t"
  else if c = '\n' then "\\n"
  else if c = '\x0c' then "\\f"
  else if c = '\r' then "\\r"
  else if c.toNat < 32 then
    "\\u00" ++ String.ofList [hexDigit (c.toNat / 16), hexDigit (c.toNat % 16)]
  else String.singleton c

/-- A text in double quotes. -/
def quote (s : String) : String :=
  "\"" ++ String.join (s.toList.map escape) ++ "\""

/-- A text made of `n` levels of indentation. -/
def indent (n : Nat) : String := String.ofList (List.replicate (2 * n) ' ')

mutual

/-- The JSON text of a value without any blank. -/
def compact : Value → String
  | .null => "null"
  | .bool true => "true"
  | .bool false => "false"
  | .int n => toString n
  | .float x => writeFloat x
  | .text s => quote s
  | .list items => "[" ++ String.intercalate "," (compactItems items) ++ "]"
  | .object fields => "\x7b" ++ String.intercalate "," (compactFields fields) ++ "\x7d"

/-- The texts of the items of a list. -/
def compactItems : List Value → List String
  | [] => []
  | v :: rest => compact v :: compactItems rest

/-- The texts of the fields of an object. -/
def compactFields : List (String × Value) → List String
  | [] => []
  | (k, v) :: rest => (quote k ++ ":" ++ compact v) :: compactFields rest

end

/-- Put each line of a block on a line of its own, one level further in. -/
def block (opening closing : String) (level : Nat) (lines : List String) : String :=
  if lines.isEmpty then opening ++ closing
  else
    opening ++ "\n" ++
      String.intercalate ",\n" (lines.map fun line => indent (level + 1) ++ line) ++
      "\n" ++ indent level ++ closing

/-- The JSON text of an object whose fields stand in the given order, each with the text of
its value. -/
def members (level : Nat) (fields : List (String × String)) : String :=
  block "\x7b" "\x7d" level (fields.map fun f => quote f.1 ++ ": " ++ f.2)

mutual

/-- The JSON text of a value that starts at a level of indentation. -/
def prettyAt (level : Nat) : Value → String
  | .list items => block "[" "]" level (prettyItems (level + 1) items)
  | .object fields => block "\x7b" "\x7d" level (prettyFields (level + 1) fields)
  | .null => "null"
  | .bool true => "true"
  | .bool false => "false"
  | .int n => toString n
  | .float x => writeFloat x
  | .text s => quote s

/-- The texts of the items of a list, one level further in. -/
def prettyItems (level : Nat) : List Value → List String
  | [] => []
  | v :: rest => prettyAt level v :: prettyItems level rest

/-- The texts of the fields of an object, one level further in. -/
def prettyFields (level : Nat) : List (String × Value) → List String
  | [] => []
  | (k, v) :: rest => (quote k ++ ": " ++ prettyAt level v) :: prettyFields level rest

end

/-- The JSON text of a value with two spaces of indentation per level. -/
def pretty (v : Value) : String := prettyAt 0 v

end WorkflowGraph.Json

namespace WorkflowGraph.Value

/-- The text a value becomes inside another text: a text stays as it is, every
other value is written as JSON. -/
def display : Value → String
  | .text s => s
  | v => Json.compact v

end WorkflowGraph.Value
