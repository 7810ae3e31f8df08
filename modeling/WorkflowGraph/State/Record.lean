import WorkflowGraph.Json.Document
import WorkflowGraph.Record
import WorkflowGraph.State.Basic
import WorkflowGraph.Timestamp

/-!
# States as values

The written form of a state, and reading it back. Every part of a state may be
missing from what is read; an error record and a pending interrupt need theirs.
-/

set_option autoImplicit false

namespace WorkflowGraph

open Record

/-- The written form of an error record. -/
def ErrorRecord.toValue (e : ErrorRecord) : Value :=
  .object [("fatal", .bool e.fatal), ("message", .text e.message), ("node", .text e.node),
    ("step", .ofNat e.step), ("timestamp", .text Timestamp.written)]

/-- The form of a written error record. -/
def ErrorRecord.form : Json.Form :=
  .record [("node", .any), ("message", .any), ("step", .any), ("fatal", .any), ("timestamp", .any)]

/-- Read an error record. -/
def ErrorRecord.ofValue? (v : Value) : Option ErrorRecord := do
  let get ← lookup? form.names v
  let node ← (get "node").bind text?
  let message ← (get "message").bind text?
  let step ← (get "step").bind nat?
  let fatal ← orDefault? bool? false (get "fatal")
  let stamp ← (get "timestamp").bind text?
  if Timestamp.isValid stamp then some ⟨node, message, step, fatal⟩ else none

/-- The written form of a pending interrupt. -/
def PendingInterrupt.toValue (p : PendingInterrupt) : Value :=
  .object [("nested", .bool p.nested), ("node", .text p.node), ("payload", p.payload),
    ("resume_key", .text p.resumeKey)]

/-- The form of a written interrupt. -/
def PendingInterrupt.form : Json.Form :=
  .record [("node", .any), ("resume_key", .any), ("payload", .any), ("nested", .any)]

/-- Read a pending interrupt. -/
def PendingInterrupt.ofValue? (v : Value) : Option PendingInterrupt := do
  let get ← lookup? form.names v
  let node ← (get "node").bind text?
  let resumeKey ← (get "resume_key").bind text?
  let payload ← get "payload"
  let nested ← orDefault? bool? false (get "nested")
  some ⟨node, resumeKey, payload, nested⟩

namespace State

/-- The written form of a state. The pending interrupt is left out where there is none. -/
def toValue (s : State) : Value :=
  .object <|
    [("errors", .list (s.errors.map ErrorRecord.toValue))] ++
    (match s.interrupt with
      | none => []
      | some p => [("interrupt", p.toValue)]) ++
    [("loop_counters", .object (Dict.mapValues Value.ofNat s.loopCounters)),
      ("step", .ofNat s.step), ("values", .object s.values)]

/-- The form of a written state. -/
def form : Json.Form :=
  .record [("values", .any), ("step", .any), ("loop_counters", .dict .number),
    ("errors", .list ErrorRecord.form), ("interrupt", PendingInterrupt.form)]

/-- Read a state. -/
def ofValue? (v : Value) : Option State := do
  let get ← lookup? form.names v
  let values ← orDefault? fields? [] (get "values")
  let step ← orDefault? nat? 0 (get "step")
  let loopCounters ← orDefault? (dict? nat?) [] (get "loop_counters")
  let errors ← orDefault? (list? ErrorRecord.ofValue?) [] (get "errors")
  let interrupt ← orDefault? (optional? PendingInterrupt.ofValue?) none (get "interrupt")
  some ⟨values, step, loopCounters, errors, interrupt⟩

end State

end WorkflowGraph
