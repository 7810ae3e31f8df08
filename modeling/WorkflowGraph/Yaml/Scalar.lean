import WorkflowGraph.Yaml.Node
import WorkflowGraph.Yaml.Tag

/-!
# Types of YAML scalars

A plain scalar is null, a boolean, an integer or a floating-point number where
it is written as one, in this order, and a text otherwise. A quoted scalar is a
text. A tag of the core schema asks for one of the types.
-/

set_option autoImplicit false

namespace WorkflowGraph.Yaml.Scalar

/-- Whether a text is one of the spellings of null. -/
def isNull (s : String) : Bool := ["", "~", "null", "Null", "NULL"].contains s

/-- The boolean that a text spells. -/
def bool? (s : String) : Option Bool :=
  if ["true", "True", "TRUE"].contains s then some true
  else if ["false", "False", "FALSE"].contains s then some false
  else none

/-- Whether a character is a decimal digit. -/
def isDigit (c : Char) : Bool := '0' ≤ c && c ≤ '9'

/-- The value of a digit in a base of at most sixteen. -/
def digit? (base : Nat) (c : Char) : Option Nat :=
  let n :=
    if isDigit c then c.toNat - 48
    else if 'a' ≤ c ∧ c ≤ 'f' then c.toNat - 87
    else if 'A' ≤ c ∧ c ≤ 'F' then c.toNat - 55
    else 16
  if n < base then some n else none

/-- The number that digits write in a base; there must be at least one. -/
def magnitude? (base : Nat) (cs : List Char) : Option Nat :=
  if cs.isEmpty then none
  else cs.foldlM (fun n c => (digit? base c).map fun d => n * base + d) 0

/-- The number of digits behind a mark of the base, such as `0x1F`. -/
def marked? : List Char → Option Nat
  | '0' :: 'x' :: digits => magnitude? 16 digits
  | '0' :: 'o' :: digits => magnitude? 8 digits
  | '0' :: 'b' :: digits => magnitude? 2 digits
  | _ => none

/-- A text of digits with a zero in front is no number. -/
def padded (cs : List Char) : Bool :=
  match cs with
  | '0' :: d :: rest => isDigit d && rest.all isDigit
  | _ => false

/-- The number of digits in base ten, or behind a mark of another base. -/
def unsigned? (cs : List Char) : Option Nat :=
  match marked? cs with
  | some n => some n
  | none => if padded cs then none else magnitude? 10 cs

/-- The largest number that is recognised as an integer. -/
def widest : Nat := Nat.pow 2 128 - 1

/-- The least number that is recognised as an integer lies this far below zero. -/
def deepest : Nat := Nat.pow 2 127

/-- The integer that a text writes. -/
def int? : List Char → Option Int
  | '-' :: cs => (unsigned? cs).bind fun n => if n ≤ deepest then some (-(n : Int)) else none
  | '+' :: cs => (unsigned? cs).bind fun n => if n ≤ widest then some (n : Int) else none
  | cs => (unsigned? cs).bind fun n => if n ≤ widest then some (n : Int) else none

/-- The natural number that a text writes, where it fits in a word. -/
def natural? (s : String) : Option Nat :=
  let cs := match s.toList with
    | '+' :: cs => cs
    | cs => cs
  (unsigned? cs).bind fun n => if (n : Int) ≤ Value.maxInt then some n else none

/-- The number `m * 10 ^ e`, where it is finite. -/
def nearest? (m : Nat) (e : Int) : Option Float :=
  let width : Int := (toString m).length
  if m = 0 ∨ width + e < -400 then some 0.0
  else if 400 < width + e then none
  else
    let x := Float.ofScientific m (e < 0) e.natAbs
    if x.isFinite then some x else none

/-- The exponent behind the digits of a number; without one it is zero. -/
def exponent? : List Char → Option Int
  | [] => some 0
  | mark :: cs =>
    if mark = 'e' ∨ mark = 'E' then
      match cs with
      | '-' :: digits => (magnitude? 10 digits).map fun n => -(n : Int)
      | '+' :: digits => (magnitude? 10 digits).map fun n => (n : Int)
      | digits => (magnitude? 10 digits).map fun n => (n : Int)
    else none

/-- The number that digits with an optional point and an optional exponent write. -/
def decimal? (cs : List Char) : Option Float := do
  let whole := cs.takeWhile isDigit
  let rest := cs.dropWhile isDigit
  let (fraction, rest) := match rest with
    | '.' :: more => (more.takeWhile isDigit, more.dropWhile isDigit)
    | _ => ([], rest)
  let m ← magnitude? 10 (whole ++ fraction)
  let e ← exponent? rest
  nearest? m (e - fraction.length)

/-- The floating-point number that a text writes. -/
def float? (s : String) : Option Float :=
  if [".inf", ".Inf", ".INF", "+.inf", "+.Inf", "+.INF"].contains s then some (1.0 / 0.0)
  else if ["-.inf", "-.Inf", "-.INF"].contains s then some (-1.0 / 0.0)
  else if [".nan", ".NaN", ".NAN"].contains s then some (0.0 / 0.0)
  else
    match s.toList with
    | '-' :: cs => (decimal? cs).map fun x => -x
    | '+' :: cs => decimal? cs
    | cs => decimal? cs

/-- An integer as a node; integers beyond the range of values are refused. -/
def intNode? (n : Int) : Option Node :=
  if Value.minInt ≤ n ∧ n ≤ Value.maxInt then some (.int n) else none

/-- The node of a plain scalar. -/
def plain? (s : String) : Option Node :=
  if isNull s then some .null
  else
    match bool? s with
    | some b => some (.bool b)
    | none =>
      match int? s.toList with
      | some n => intNode? n
      | none =>
        let cs := match s.toList with
          | '-' :: cs => cs
          | '+' :: cs => cs
          | cs => cs
        match (if padded cs then none else float? s) with
        | some x => some (.float x)
        | none => some (.text s)

/-- The node of a scalar under a tag that is not the document's own. -/
def underTag? (tag : Tag) (s : String) : Option Node :=
  if tag = .ofCore "bool" then (bool? s).map .bool
  else if tag = .ofCore "int" then (int? s.toList).bind intNode?
  else if tag = .ofCore "float" then (float? s).map .float
  else if tag = .ofCore "null" then (if isNull s && s != "" then some .null else none)
  else some (.text s)

end WorkflowGraph.Yaml.Scalar
