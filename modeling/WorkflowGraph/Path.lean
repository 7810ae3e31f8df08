import WorkflowGraph.Text.Blank
import WorkflowGraph.Value

/-!
# Dotted paths

A path such as `a.b.0` names a place inside a state: its first segment is a
field, every further segment a field of an object or an index into a list. A
path may start with `state.`, which is left out.
-/

set_option autoImplicit false

namespace WorkflowGraph

/-- The index that a segment of a path names: decimal digits, with an optional
plus sign, whose number fits in a word. -/
def index? (segment : String) : Option Nat :=
  let digits := match segment.toList with
    | '+' :: rest => rest
    | cs => cs
  if digits.isEmpty || !digits.all (fun c => '0' ≤ c && c ≤ '9') then none
  else
    let n := digits.foldl (fun n c => n * 10 + (c.toNat - 48)) 0
    if n ≤ 18446744073709551615 then some n else none

namespace Value

/-- The part of a value that one segment names. -/
def step? (v : Value) (segment : String) : Option Value :=
  match v with
  | .object fields => Dict.get? fields segment
  | .list items => (index? segment).bind fun i => items[i]?
  | _ => none

/-- The part of a value that a sequence of segments names. -/
def follow? (v : Value) : List String → Option Value
  | [] => some v
  | segment :: rest => (v.step? segment).bind fun w => w.follow? rest

end Value

namespace Fields

/-- The value that the segments of a path name in a state. -/
def follow? (fields : Fields) : List String → Option Value
  | [] => none
  | first :: rest => (Dict.get? fields first).bind fun v => v.follow? rest

end Fields

namespace Path

/-- The start that a path may have. -/
def statePrefix : String := "state."

/-- A path without the start that it may have. -/
def bare (path : String) : String := (Text.after? statePrefix path).getD path

/-- The segments of a path. -/
def segments (path : String) : List String := Text.split '.' (bare path)

/-- The field that a path starts at. -/
def root (path : String) : String := (segments path).headD ""

end Path

/-- The value that a dotted path names in a state. -/
def Fields.at? (fields : Fields) (path : String) : Option Value :=
  Fields.follow? fields (Path.segments path)

end WorkflowGraph
