import WorkflowGraph.Condition.Expr
import WorkflowGraph.Json.Writer

/-!
# Written trees of conditions

The tree of a condition as a text in which every operator stands in front of its
operands, all in parentheses. No rule of precedence is needed to read it, so it shows
how a condition was grouped.
-/

set_option autoImplicit false

namespace WorkflowGraph

/-- A literal, with the name of its type in front. -/
def Literal.written : Literal → String
  | .int n => "(int " ++ toString n ++ ")"
  | .float x => "(float " ++ writeFloat x ++ ")"
  | .text s => "(str " ++ Json.quote s ++ ")"
  | .bool b => if b then "(bool true)" else "(bool false)"
  | .null => "(null)"

/-- The tree of a condition. -/
def Expr.written : Expr → String
  | .literal l => l.written
  | .path segments => "(path " ++ String.intercalate "." segments ++ ")"
  | .compare op lhs rhs => "(" ++ op.symbol ++ " " ++ lhs.written ++ " " ++ rhs.written ++ ")"
  | .and lhs rhs => "(and " ++ lhs.written ++ " " ++ rhs.written ++ ")"
  | .or lhs rhs => "(or " ++ lhs.written ++ " " ++ rhs.written ++ ")"
  | .not inner => "(not " ++ inner.written ++ ")"

end WorkflowGraph
