import WorkflowGraph.Node.Execution

/-!
# Passthroughs

A passthrough sets fields to fixed values, copies fields, and adds to numbers. It calls
nothing. Either all of its writes are made or none.
-/

set_option autoImplicit false

namespace WorkflowGraph.PassthroughSpec

/-- The number that is added to: nothing and null count as zero. -/
def operand? : Option Value → Option Value
  | none => some (.int 0)
  | some .null => some (.int 0)
  | some (.int n) => some (.int n)
  | some (.float x) => some (.float x)
  | some _ => none

/-- The sum of two numbers. Signed integers are added exactly where the sum is one;
otherwise the sum is a floating-point number, which has to be finite. -/
def sum? (a b : Value) : Option Value :=
  let exact : Option Value :=
    match a.signed?, b.signed? with
    | some m, some n =>
      if Value.minInt ≤ m + n && m + n ≤ Value.maxSigned then some (.int (m + n)) else none
    | _, _ => none
  match exact with
  | some v => some v
  | none =>
    let x := a.asFloat?.getD 0 + b.asFloat?.getD 0
    if x.isFinite then some (.float x) else none

/-- The content of a field after a number has been added. -/
def increased (id field : String) (old : Option Value) (delta : Number) :
    Except TaskError Value :=
  match operand? old with
  | none =>
    .error (.invalidResult id ("cannot increment " ++ ticked field ++ ": it holds a " ++
      (Value.ofOption old).typeName))
  | some a =>
    match sum? a delta.value with
    | some v => .ok v
    | none => .error (.invalidResult id (ticked field ++ " overflowed"))

/-- The writes of a list of additions. -/
def increments (id : String) (s : State) :
    List (String × Number) → Except TaskError (List (String × Value))
  | [] => .ok []
  | (field, delta) :: rest =>
    match increased id field (s.at? field) delta, increments id s rest with
    | .error e, _ => .error e
    | .ok _, .error e => .error e
    | .ok v, .ok more => .ok ((field, v) :: more)

/-- The update of a passthrough. -/
def update (spec : PassthroughSpec) (id : String) (s : State) : Except TaskError Update :=
  let fixed := spec.set
  let copied := spec.copy.map fun p => (p.1, Value.ofOption (s.at? p.2))
  (increments id s spec.increment).map fun added => ⟨fixed ++ copied ++ added⟩

/-- What a passthrough does. -/
def behaviour (spec : PassthroughSpec) (id : String) : Behaviour := fun v =>
  pure (.of ((spec.update id v.state).map .proceed))

end WorkflowGraph.PassthroughSpec
