import WorkflowGraph.Condition.Token

/-!
# The grammar of conditions

```text
expr       := or
or         := and ("or" and)*
and        := unary ("and" unary)*
unary      := "not" unary | comparison
comparison := operand (op operand)?
operand    := literal | path | "(" expr ")"
```

`Expr.ofTokens` reads a list of tokens by this grammar. Comparisons do not
chain. At most `Expr.maxDepth` occurrences of `not` and of parentheses may be
open at once.
-/

set_option autoImplicit false

namespace WorkflowGraph

/-- A literal of a condition. -/
inductive Literal where
  | int (n : Int)
  | float (x : Float)
  | text (s : String)
  | bool (b : Bool)
  | null

/-- The tree of a condition. -/
inductive Expr where
  | literal (l : Literal)
  | path (segments : List String)
  | compare (op : Comparison) (lhs rhs : Expr)
  | and (lhs rhs : Expr)
  | or (lhs rhs : Expr)
  | not (inner : Expr)

namespace Expr

/-- The paths at the leaves of a condition, from left to right. -/
def paths : Expr → List String
  | .literal _ => []
  | .path segments => [String.intercalate "." segments]
  | .compare _ lhs rhs => lhs.paths ++ rhs.paths
  | .and lhs rhs => lhs.paths ++ rhs.paths
  | .or lhs rhs => lhs.paths ++ rhs.paths
  | .not inner => inner.paths

/-- How many `not`s and parentheses may be open at once. -/
def maxDepth : Nat := 128

/-- The segments of a path without the start `state`, which counts as such only
where something follows it. -/
def withoutState : List String → List String
  | "state" :: second :: rest => second :: rest
  | segments => segments

/-- What reading a part of a condition gives: its tree and the tokens after it. -/
abbrev Parsed : Type := Except FaultAt (Expr × List Token)

/-- The byte offset of the first of the tokens, or of the end of the text. -/
def offsetOf (ending : Nat) : List Token → Nat
  | [] => ending
  | t :: _ => t.position

/-- Go one level deeper at a token, if that is still allowed. -/
def descend (depth position : Nat) : Except FaultAt Nat :=
  if maxDepth < depth + 1 then .error ⟨position, .nestedTooDeeply⟩ else .ok (depth + 1)

mutual

/-- Read a disjunction. -/
def readOr : Nat → Nat → Nat → List Token → Parsed
  | 0, ending, _, _ => .error ⟨ending, .unexpectedEnd⟩
  | fuel + 1, ending, depth, ts =>
    match readAnd fuel ending depth ts with
    | .error e => .error e
    | .ok (lhs, rest) => readOrTail fuel ending depth lhs rest

/-- Read the further parts of a disjunction. -/
def readOrTail : Nat → Nat → Nat → Expr → List Token → Parsed
  | 0, ending, _, _, _ => .error ⟨ending, .unexpectedEnd⟩
  | fuel + 1, ending, depth, lhs, ts =>
    match ts with
    | ⟨.or, _⟩ :: more =>
      match readAnd fuel ending depth more with
      | .error e => .error e
      | .ok (rhs, rest) => readOrTail fuel ending depth (.or lhs rhs) rest
    | _ => .ok (lhs, ts)

/-- Read a conjunction. -/
def readAnd : Nat → Nat → Nat → List Token → Parsed
  | 0, ending, _, _ => .error ⟨ending, .unexpectedEnd⟩
  | fuel + 1, ending, depth, ts =>
    match readUnary fuel ending depth ts with
    | .error e => .error e
    | .ok (lhs, rest) => readAndTail fuel ending depth lhs rest

/-- Read the further parts of a conjunction. -/
def readAndTail : Nat → Nat → Nat → Expr → List Token → Parsed
  | 0, ending, _, _, _ => .error ⟨ending, .unexpectedEnd⟩
  | fuel + 1, ending, depth, lhs, ts =>
    match ts with
    | ⟨.and, _⟩ :: more =>
      match readUnary fuel ending depth more with
      | .error e => .error e
      | .ok (rhs, rest) => readAndTail fuel ending depth (.and lhs rhs) rest
    | _ => .ok (lhs, ts)

/-- Read a negation or a comparison. -/
def readUnary : Nat → Nat → Nat → List Token → Parsed
  | 0, ending, _, _ => .error ⟨ending, .unexpectedEnd⟩
  | fuel + 1, ending, depth, ts =>
    match ts with
    | ⟨.not, position⟩ :: more =>
      match descend depth position with
      | .error e => .error e
      | .ok deeper =>
        match readUnary fuel ending deeper more with
        | .error e => .error e
        | .ok (inner, rest) => .ok (.not inner, rest)
    | _ => readComparison fuel ending depth ts

/-- Read an operand, or two operands with a comparison between them. -/
def readComparison : Nat → Nat → Nat → List Token → Parsed
  | 0, ending, _, _ => .error ⟨ending, .unexpectedEnd⟩
  | fuel + 1, ending, depth, ts =>
    match readOperand fuel ending depth ts with
    | .error e => .error e
    | .ok (lhs, ⟨.comparison op, _⟩ :: more) =>
      match readOperand fuel ending depth more with
      | .error e => .error e
      | .ok (rhs, rest) => .ok (.compare op lhs rhs, rest)
    | .ok (lhs, rest) => .ok (lhs, rest)

/-- Read a literal, a path, or a condition in parentheses. -/
def readOperand : Nat → Nat → Nat → List Token → Parsed
  | 0, ending, _, _ => .error ⟨ending, .unexpectedEnd⟩
  | fuel + 1, ending, depth, ts =>
    match ts with
    | [] => .error ⟨ending, .unexpectedEnd⟩
    | t :: rest =>
      match t.lexeme with
      | .int n => .ok (.literal (.int n), rest)
      | .float x => .ok (.literal (.float x), rest)
      | .text s => .ok (.literal (.text s), rest)
      | .bool b => .ok (.literal (.bool b), rest)
      | .null => .ok (.literal .null, rest)
      | .path segments =>
        match rest with
        | ⟨.open, _⟩ :: _ => .error ⟨t.position, .functionCall⟩
        | _ => .ok (.path (withoutState segments), rest)
      | .open =>
        match descend depth t.position with
        | .error e => .error e
        | .ok deeper =>
          match readOr fuel ending deeper rest with
          | .error e => .error e
          | .ok (inner, ⟨.close, _⟩ :: after) => .ok (inner, after)
          | .ok (_, after) => .error ⟨offsetOf ending after, .missingParenthesis⟩
      | _ => .error ⟨t.position, .missingOperand⟩

end

/-- The fault of a token that is left over behind a whole condition. -/
def leftover (t : Token) : FaultAt :=
  match t.lexeme with
  | .open => ⟨t.position, .functionCall⟩
  | .comparison _ => ⟨t.position, .chainedComparison⟩
  | _ => ⟨t.position, .unexpectedToken⟩

/-- Read a whole condition from its tokens; `ending` is the byte length of its
text. A token is passed at most six times on the way down the grammar, which
gives the fuel. -/
def ofTokens (ending : Nat) (ts : List Token) : Except FaultAt Expr :=
  match ts with
  | [] => .error ⟨0, .empty⟩
  | _ =>
    match ts[Token.maxCount]? with
    | some t => .error ⟨t.position, .tooManyTokens⟩
    | none =>
      match readOr (6 * ts.length + 6) ending 0 ts with
      | .error e => .error e
      | .ok (e, []) => .ok e
      | .ok (_, t :: _) => .error (leftover t)

/-- Read a condition from its text. -/
def parse (source : String) : Except FaultAt Expr :=
  match Token.scan source with
  | .error e => .error e
  | .ok ts => ofTokens source.utf8ByteSize ts

end Expr

end WorkflowGraph
