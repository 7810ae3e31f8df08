import WorkflowGraph.Checkpoint.Basic
import WorkflowGraph.Record

/-!
# Checkpoints read back

A checkpoint is written as an object, and what is read from this object is the checkpoint again
(`Checkpoint.survives_writing`). The fields are taken one record at a time, from the inside out:
error records and pending interrupts, then states (`State.ofValue?_toValue`), then checkpoints. What
is not there is left out and read as nothing (`Checkpoint.field?_interrupt`); what is there is
written even where it is null, such as the payload of an interrupt (`Checkpoint.field?_payload`).
-/

set_option autoImplicit false

namespace WorkflowGraph

open Record

theorem Timestamp.isValid_written : isValid written = true := by decide

theorem ErrorRecord.ofValue?_toValue (e : ErrorRecord) : ofValue? e.toValue = some e := by
  simp [ofValue?, toValue, lookup?, Dict.get?, text?, nat?_ofNat, orDefault?, bool?,
    Timestamp.isValid_written]

theorem PendingInterrupt.ofValue?_toValue (p : PendingInterrupt) :
    ofValue? p.toValue = some p := by
  simp [ofValue?, toValue, lookup?, Dict.get?, text?, orDefault?, bool?]

/-- What a reader finds under the names of a written state. -/
theorem State.lookup?_toValue (s : State) : ∃ get, lookup? form.names s.toValue = some get ∧
    get "values" = some (.object s.values) ∧ get "step" = some (.ofNat s.step) ∧
    get "loop_counters" = some (.object (Dict.mapValues Value.ofNat s.loopCounters)) ∧
    get "errors" = some (.list (s.errors.map ErrorRecord.toValue)) ∧
    get "interrupt" = s.interrupt.map PendingInterrupt.toValue := by
  obtain ⟨values, step, loopCounters, errors, interrupt⟩ := s
  refine ⟨_, rfl, ?_⟩
  cases interrupt <;> simp [Dict.get?_cons]

theorem State.ofValue?_toValue (s : State) : ofValue? s.toValue = some s := by
  obtain ⟨get, hlookup, hvalues, hstep, hcounters, herrors, hinterrupt⟩ := s.lookup?_toValue
  have hpending : orDefault? (optional? PendingInterrupt.ofValue?) none (get "interrupt") =
      some s.interrupt := by
    rw [hinterrupt]
    cases s.interrupt with
    | none => rfl
    | some p => exact optional?_of_ne_null p.ofValue?_toValue Value.noConfusion
  simp only [ofValue?, hlookup, hvalues, hstep, hcounters, herrors, hpending, orDefault?_some,
    fields?, nat?_ofNat, dict?, allFields?_mapValues nat?_ofNat, list?,
    all?_map ErrorRecord.ofValue?_toValue, Option.bind_eq_bind, Option.bind_some]

namespace Checkpoint

/-- **A written checkpoint is read back.** -/
theorem ofValue?_toValue (c : Checkpoint) : ofValue? c.toValue = some c := by
  obtain ⟨thread, step, state, next, metadata⟩ := c
  have hmetadata : allFields? text? (metadata.mapValues .text) = some metadata :=
    allFields?_mapValues (α := String) (fun _ => rfl) metadata
  cases next <;>
    simp [ofValue?, toValue, lookup?, Dict.get?, orDefault?, optional?, text?, nat?_ofNat,
      state.ofValue?_toValue, dict?, hmetadata, Timestamp.isValid_written]

/-- No two checkpoints are written alike. -/
theorem toValue_inj {c d : Checkpoint} : c.toValue = d.toValue ↔ c = d := by
  constructor
  · intro h
    have hread := congrArg ofValue? h
    rw [ofValue?_toValue, ofValue?_toValue] at hread
    exact Option.some.inj hread
  · exact congrArg toValue

/-! ## What is there and what is not -/

theorem field?_next (c : Checkpoint) :
    c.toValue.field? "next_node" = c.next.map .text := by
  obtain ⟨thread, step, state, next, metadata⟩ := c
  cases next <;> simp [toValue, Value.field?, Dict.get?]

theorem field?_interrupt (c : Checkpoint) :
    (c.toValue.field? "state").bind (·.field? "interrupt") =
      c.state.interrupt.map PendingInterrupt.toValue := by
  obtain ⟨thread, step, state, next, metadata⟩ := c
  have hstate : (toValue ⟨thread, step, state, next, metadata⟩).field? "state" =
      some state.toValue := by
    cases next <;> simp [toValue, Value.field?, Dict.get?]
  obtain ⟨values, step, loopCounters, errors, interrupt⟩ := state
  rw [hstate]
  cases interrupt <;> simp [State.toValue, Value.field?, Dict.get?]

theorem field?_payload (p : PendingInterrupt) : p.toValue.field? "payload" = some p.payload := by
  simp [PendingInterrupt.toValue, Value.field?, Dict.get?]

/-- **Checkpoints survive being written.** For every checkpoint, whatever its fields, counters,
error records and metadata are, what is read from its written form is the checkpoint itself. So it
is suspended or complete as before, it waits at the same node for the same field with the same
payload, and it goes on at the same node; and no other checkpoint is written like it. A next node
and an interrupt are written exactly where there is one, and the payload of an interrupt always, so
that a payload of null is no missing payload. -/
theorem survives_writing (c : Checkpoint) :
    ofValue? c.toValue = some c ∧
    (∀ back, ofValue? c.toValue = some back →
      back.isSuspended = c.isSuspended ∧ back.isComplete = c.isComplete ∧
      back.state.interrupt = c.state.interrupt ∧ back.next = c.next) ∧
    (∀ d : Checkpoint, d.toValue = c.toValue ↔ d = c) ∧
    c.toValue.field? "next_node" = c.next.map .text ∧
    (c.toValue.field? "state").bind (·.field? "interrupt") =
      c.state.interrupt.map PendingInterrupt.toValue ∧
    ((c.toValue.field? "state").bind (·.field? "interrupt")).bind (·.field? "payload") =
      c.state.interrupt.map PendingInterrupt.payload := by
  refine ⟨c.ofValue?_toValue, fun back hback => ?_, fun d => toValue_inj, c.field?_next,
    c.field?_interrupt, ?_⟩
  · rw [ofValue?_toValue] at hback
    cases hback
    exact ⟨rfl, rfl, rfl, rfl⟩
  · rw [c.field?_interrupt]
    cases c.state.interrupt with
    | none => rfl
    | some p => exact field?_payload p

end Checkpoint

end WorkflowGraph
