import WorkflowGraph.Path
import WorkflowGraph.Shape.Basic

/-!
# Execution states

A state holds the fields that nodes read and write, and the bookkeeping of the
run. Nodes never change a state: they return an update, a list of writes in
order, and the run merges it field by field as the shape says.
-/

set_option autoImplicit false

namespace WorkflowGraph

/-- An error seen during a run. -/
structure ErrorRecord where
  node : String
  message : String
  step : Nat
  fatal : Bool
  deriving DecidableEq, Repr

/-- An error that the run went on after. -/
def ErrorRecord.recovered (node message : String) (step : Nat) : ErrorRecord :=
  ⟨node, message, step, false⟩

/-- An error that ended the run. -/
def ErrorRecord.ending (node message : String) (step : Nat) : ErrorRecord :=
  ⟨node, message, step, true⟩

/-- What a suspended run waits for. -/
structure PendingInterrupt where
  node : String
  resumeKey : String
  payload : Value
  nested : Bool

/-- The state of one thread. -/
structure State where
  values : Fields
  step : Nat
  loopCounters : Dict Nat
  errors : List ErrorRecord
  interrupt : Option PendingInterrupt

/-- The writes of a node, in the order in which it made them. -/
structure Update where
  writes : List (String × Value)

namespace Update

/-- The update that writes nothing. -/
def empty : Update := ⟨[]⟩

/-- Whether nothing is written. -/
def isEmpty (u : Update) : Bool := u.writes.isEmpty

/-- The update with a single write. -/
def single (field : String) (value : Value) : Update := ⟨[(field, value)]⟩

/-- A further write after all others. -/
def write (u : Update) (field : String) (value : Value) : Update :=
  ⟨u.writes ++ [(field, value)]⟩

/-- The writes of one update and then those of another. -/
def extend (u w : Update) : Update := ⟨u.writes ++ w.writes⟩

/-- The last value written to a field. -/
def last? (u : Update) (field : String) : Option Value :=
  (u.writes.reverse.find? fun p => p.1 == field).map Prod.snd

/-- The written fields, once per write. -/
def fields (u : Update) : List String := u.writes.map Prod.fst

/-- The writes as an object; the last write to a field counts. -/
def toFields (u : Update) : Fields := Dict.ofPairs u.writes

end Update

/-- The list that a value stands for when something is appended to it. -/
def Value.asList : Value → List Value
  | .null => []
  | .list items => items
  | v => [v]

/-- The items that a written value adds to a list. -/
def Value.contribution : Value → List Value
  | .null => []
  | .list items => items
  | v => [v]

/-- The content of a field after a write. -/
def MergeStrategy.merge (strategy : MergeStrategy) (old : Option Value) (written : Value) :
    Value :=
  match strategy with
  | .overwrite => written
  | .append => .list ((Value.ofOption old).asList ++ written.contribution)

/-- The fields after one write. -/
def Fields.write (fields : Fields) (shape : StateShape) (w : String × Value) : Fields :=
  Dict.put fields w.1 ((shape.merge w.1).merge (Dict.get? fields w.1) w.2)

/-- The fields after an update. -/
def Fields.apply (fields : Fields) (shape : StateShape) (u : Update) : Fields :=
  u.writes.foldl (fun acc w => Fields.write acc shape w) fields

namespace State

/-- A state with the given fields, before its first step. -/
def ofFields (values : Fields) : State := ⟨values, 0, [], [], none⟩

/-- The state without any field. -/
def blank : State := ofFields []

/-- The state that a value describes: its fields, or none for null. -/
def ofInput : Value → Except String State
  | .object fields => .ok (ofFields fields)
  | .null => .ok blank
  | v => .error ("initial state must be an object, got " ++ v.typeName)

/-- The value that a dotted path names. -/
def at? (s : State) (path : String) : Option Value := s.values.at? path

/-- Whether a field holds something other than null. -/
def populated (s : State) (field : String) : Bool :=
  isPopulated (Dict.get? s.values field)

/-- Whether the run waits for a value from its caller. -/
def isSuspended (s : State) : Bool := s.interrupt.isSome

/-- Merge the update of a node into the fields. -/
def apply (s : State) (shape : StateShape) (u : Update) : State :=
  { s with values := s.values.apply shape u }

/-- Overwrite fields with the input of a caller. -/
def mergeInput (s : State) (input : Fields) : State :=
  { s with values := Dict.merge s.values input }

/-- Add an error record behind the others. -/
def record (s : State) (e : ErrorRecord) : State := { s with errors := s.errors ++ [e] }

end State

end WorkflowGraph
