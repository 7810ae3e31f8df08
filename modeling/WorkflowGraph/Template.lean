import WorkflowGraph.Json.Writer
import WorkflowGraph.Path

/-!
# Message templates

A template is text with placeholders such as `{a.b}`, `{state.a}` or
`{{ name }}`. `Template.pieces` cuts it into literal text and placeholders, which
depends on the template alone; rendering then replaces each placeholder once and
looks at nothing it has inserted.
-/

set_option autoImplicit false

namespace WorkflowGraph.Template

/-- A piece of a template. A hole keeps the text it was written with. -/
inductive Piece where
  | literal (text : List Char)
  | hole (written : List Char) (path : String)
  deriving DecidableEq, Repr

/-- Whether a name may start with a character. -/
def startsName (c : Char) : Bool :=
  ('a' ≤ c && c ≤ 'z') || ('A' ≤ c && c ≤ 'Z') || c == '_'

/-- Whether a character may stand in a name. -/
def inName (c : Char) : Bool := startsName c || ('0' ≤ c && c ≤ '9')

/-- The further segments of a path, each behind a dot, and what follows them. -/
def takeSegments : Nat → List Char → List (List Char) × List Char
  | fuel + 1, '.' :: rest =>
    let word := rest.takeWhile inName
    if word.isEmpty then ([], '.' :: rest)
    else
      let (more, after) := takeSegments fuel (rest.dropWhile inName)
      (word :: more, after)
  | _, cs => ([], cs)

/-- The segments of a path without the start `state`, which is left out where a
name follows it. -/
def withoutState : List (List Char) → List (List Char)
  | first :: second :: rest =>
    if first = ['s', 't', 'a', 't', 'e'] ∧ second.head?.any startsName then second :: rest
    else first :: second :: rest
  | segments => segments

/-- Read what follows the first brace of a placeholder: its path and the text behind it. -/
def readHole? (cs : List Char) : Option (String × List Char) :=
  let cs := match cs with
    | '{' :: rest => rest
    | _ => cs
  let cs := Text.trimStart cs
  if cs.head?.any startsName then
    let first := cs.takeWhile inName
    let (more, rest) := takeSegments cs.length (cs.dropWhile inName)
    match Text.trimStart rest with
    | '}' :: '}' :: after => some (pathOf (first :: more), after)
    | '}' :: after => some (pathOf (first :: more), after)
    | _ => none
  else none
where
  /-- The dotted path of segments. -/
  pathOf (segments : List (List Char)) : String :=
    String.intercalate "." ((withoutState segments).map String.ofList)

/-- Put a character in front of the pieces of the text behind it. -/
def consLiteral (c : Char) : List Piece → List Piece
  | .literal text :: rest => .literal (c :: text) :: rest
  | pieces => .literal [c] :: pieces

/-- Cut a text into pieces; a round takes at least one character. -/
def piecesFrom : Nat → List Char → List Piece
  | _, [] => []
  | 0, cs => [.literal cs]
  | fuel + 1, c :: rest =>
    if c = '{' then
      match readHole? rest with
      | some (path, after) =>
        .hole ((c :: rest).take (rest.length + 1 - after.length)) path :: piecesFrom fuel after
      | none => consLiteral c (piecesFrom fuel rest)
    else consLiteral c (piecesFrom fuel rest)

/-- The pieces of a template. -/
def pieces (template : String) : List Piece :=
  piecesFrom template.toList.length template.toList

/-- The path of a placeholder. -/
def Piece.path? : Piece → Option String
  | .literal _ => none
  | .hole _ path => some path

/-- The paths of the placeholders, in their order. -/
def placeholders (template : String) : List String := (pieces template).filterMap Piece.path?

/-- The text inserted for a value: nothing for null and for no value, a text as it
is, and the JSON text of anything else. -/
def insertion : Option Value → String
  | none => ""
  | some .null => ""
  | some v => v.display

/-- The text of a piece over a state. -/
def Piece.render (fields : Fields) : Piece → String
  | .literal text => String.ofList text
  | .hole _ path => insertion (fields.at? path)

/-- Fill the placeholders of a template from a state. -/
def render (template : String) (fields : Fields) : String :=
  String.join ((pieces template).map (Piece.render fields))

end WorkflowGraph.Template
