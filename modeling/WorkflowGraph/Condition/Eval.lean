import WorkflowGraph.Condition.Expr
import WorkflowGraph.Path

/-!
# Conditions over a state

A path that leads nowhere has no value. Such an operand is false on its own;
compared with anything, only `!=` holds.
-/

set_option autoImplicit false

namespace WorkflowGraph

/-- A text that is refused as a condition. -/
structure ConditionError where
  expression : String
  position : Nat
  fault : ConditionFault
  deriving DecidableEq, Repr

/-- The wording of a refusal. -/
def ConditionError.message (e : ConditionError) : String :=
  s!"invalid expression `{e.expression}` at offset {e.position}: " ++ e.fault.message

namespace Value

/-- Whether a value counts as true. -/
def truthy : Value → Bool
  | .null => false
  | .bool b => b
  | .int n => n != 0
  | .float x => !(x == 0.0)
  | .text s => !s.isEmpty
  | .list items => !items.isEmpty
  | .object fields => !fields.isEmpty

/-- Equality as conditions see it: numbers by their amount, all else by `same`. -/
def equals (a b : Value) : Bool :=
  if a.isNumber && b.isNumber then a.compareNumbers? b == some .eq else a.same b

/-- Numbers are ordered by their amount and texts by code points; nothing else is ordered. -/
def order? (a b : Value) : Option Ordering :=
  match a, b with
  | .text s, .text t => some (compare s t)
  | a, b => if a.isNumber && b.isNumber then a.compareNumbers? b else none

end Value

namespace Comparison

/-- Whether a comparison holds between two operands, of which each may be absent. -/
def holds (op : Comparison) (lhs rhs : Option Value) : Bool :=
  match lhs, rhs with
  | some a, some b =>
    match op with
    | .eq => a.equals b
    | .ne => !a.equals b
    | .lt => a.order? b == some .lt
    | .le => a.order? b == some .lt || a.order? b == some .eq
    | .gt => a.order? b == some .gt
    | .ge => a.order? b == some .gt || a.order? b == some .eq
  | _, _ => op == .ne

end Comparison

/-- The value of a literal. -/
def Literal.value : Literal → Value
  | .int n => .int n
  | .float x => Value.ofFloat x
  | .text s => .text s
  | .bool b => .bool b
  | .null => .null

namespace Expr

/-- The value of a condition over a state; nothing where a path leads nowhere. -/
def eval (fields : Fields) : Expr → Option Value
  | .literal l => some l.value
  | .path segments => fields.follow? segments
  | .compare op lhs rhs => some (.bool (op.holds (lhs.eval fields) (rhs.eval fields)))
  | .and lhs rhs =>
    some (.bool ((lhs.eval fields).any Value.truthy && (rhs.eval fields).any Value.truthy))
  | .or lhs rhs =>
    some (.bool ((lhs.eval fields).any Value.truthy || (rhs.eval fields).any Value.truthy))
  | .not inner => some (.bool (!(inner.eval fields).any Value.truthy))

end Expr

/-- A condition: the tree that is evaluated and the text that is shown. -/
structure Condition where
  source : String
  expr : Expr

namespace Condition

/-- Read a condition. The text is shown without the blanks at its ends. -/
def parse (source : String) : Except ConditionError Condition :=
  match Expr.parse source with
  | .error e => .error ⟨source, e.position, e.fault⟩
  | .ok expr => .ok ⟨Text.trim source, expr⟩

/-- The paths a condition reads, from left to right. -/
def paths (c : Condition) : List String := c.expr.paths

/-- Whether a condition holds in a state. -/
def holds (c : Condition) (fields : Fields) : Bool := (c.expr.eval fields).any Value.truthy

/-- The paths that the text of a condition reads; none where it is no condition. -/
def pathsOf (source : String) : List String :=
  match Expr.parse source with
  | .error _ => []
  | .ok expr => expr.paths

end Condition

end WorkflowGraph
