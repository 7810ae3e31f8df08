import WorkflowGraph.Dict

/-!
# State values

The values that a workflow's state holds: null, booleans, numbers, text, lists
and objects. Integers are exact and kept apart from floating-point numbers, so
`1` and `1.0` are two different values; comparisons between numbers are made by
`Value.compareNumbers?`, which looks across that divide.
-/

set_option autoImplicit false

namespace WorkflowGraph

/-- A value of the state. The integers that occur lie between `Value.minInt` and
`Value.maxInt`; the fields of an object stand in rising order of their names. -/
inductive Value where
  | null
  | bool (b : Bool)
  | int (n : Int)
  | float (x : Float)
  | text (s : String)
  | list (items : List Value)
  | object (fields : List (String × Value))
  deriving Inhabited

/-- The fields of an object, and the user-visible part of a state. -/
abbrev Fields : Type := Dict Value

namespace Value

/-- The least integer a value can hold. -/
def minInt : Int := -9223372036854775808

/-- The largest integer a value can hold. -/
def maxInt : Int := 18446744073709551615

/-- The largest integer that counts as a signed one. -/
def maxSigned : Int := 9223372036854775807

/-- The name of a value's type in messages. -/
def typeName : Value → String
  | .null => "null"
  | .bool _ => "boolean"
  | .int _ => "number"
  | .float _ => "number"
  | .text _ => "string"
  | .list _ => "list"
  | .object _ => "object"

/-- Whether the value is `null`. -/
def isNull : Value → Bool
  | .null => true
  | _ => false

/-- The floating-point number nearest to an integer. -/
def floatOfInt (n : Int) : Float :=
  if n < 0 then -(n.natAbs.toUInt64.toFloat) else n.toNat.toUInt64.toFloat

/-- The number as a signed integer, where it is one. -/
def signed? : Value → Option Int
  | .int n => if n ≤ maxSigned then some n else none
  | _ => none

/-- The number as a floating-point number. -/
def asFloat? : Value → Option Float
  | .int n => some (floatOfInt n)
  | .float x => some x
  | _ => none

mutual

/-- Equality of values. An integer never equals a floating-point number, and the
two zeros of the floating-point numbers are equal. -/
def same : Value → Value → Bool
  | .null, .null => true
  | .bool a, .bool b => a == b
  | .int a, .int b => a == b
  | .float a, .float b => a == b
  | .text a, .text b => a == b
  | .list as, .list bs => sameItems as bs
  | .object as, .object bs => sameFields as bs
  | _, _ => false

/-- Equality of lists, item by item. -/
def sameItems : List Value → List Value → Bool
  | [], [] => true
  | a :: as, b :: bs => same a b && sameItems as bs
  | _, _ => false

/-- Equality of objects, field by field. -/
def sameFields : List (String × Value) → List (String × Value) → Bool
  | [], [] => true
  | (k, a) :: as, (l, b) :: bs => k == l && same a b && sameFields as bs
  | _, _ => false

end

mutual

/-- How deeply lists and objects are nested in a value; a scalar has depth zero. -/
def depth : Value → Nat
  | .list items => depthItems items + 1
  | .object fields => depthFields fields + 1
  | _ => 0

/-- The greatest depth of the items of a list. -/
def depthItems : List Value → Nat
  | [] => 0
  | v :: rest => max (depth v) (depthItems rest)

/-- The greatest depth of the fields of an object. -/
def depthFields : List (String × Value) → Nat
  | [] => 0
  | (_, v) :: rest => max (depth v) (depthFields rest)

end

mutual

/-- Apply a function to all texts of a value; the names of fields stay as they are. -/
def mapTexts (f : String → String) : Value → Value
  | .text s => .text (f s)
  | .list items => .list (mapTextsOfItems f items)
  | .object fields => .object (mapTextsOfFields f fields)
  | v => v

/-- Apply a function to all texts of a list's items. -/
def mapTextsOfItems (f : String → String) : List Value → List Value
  | [] => []
  | v :: rest => mapTexts f v :: mapTextsOfItems f rest

/-- Apply a function to all texts of an object's fields. -/
def mapTextsOfFields (f : String → String) : List (String × Value) → List (String × Value)
  | [] => []
  | (k, v) :: rest => (k, mapTexts f v) :: mapTextsOfFields f rest

end

/-- The value of an object's field, or of nothing where the value is no object. -/
def field? (v : Value) (name : String) : Option Value :=
  match v with
  | .object fields => Dict.get? fields name
  | _ => none

/-- The text of an object's field, where it is a text. -/
def textAt? (v : Value) (name : String) : Option String :=
  match v.field? name with
  | some (.text s) => some s
  | _ => none

/-- The value of a natural number. -/
def ofNat (n : Nat) : Value := .int n

/-- The value of a list of texts. -/
def texts (items : List String) : Value := .list (items.map .text)

/-- An object with the given fields. -/
def record (fields : List (String × Value)) : Value := .object (Dict.ofPairs fields)

/-- The value of something that may be missing, with null for nothing. -/
def orNull {α : Type} (write : α → Value) : Option α → Value
  | none => .null
  | some a => write a

/-- A floating-point number as a value; what is not finite becomes null. -/
def ofFloat (x : Float) : Value := if x.isFinite then .float x else .null

/-- How two numbers compare. Two signed integers are compared exactly; any other
pair is compared as floating-point numbers. -/
def compareNumbers? (a b : Value) : Option Ordering :=
  match a.signed?, b.signed? with
  | some m, some n => some (compare m n)
  | _, _ =>
    match a.asFloat?, b.asFloat? with
    | some x, some y =>
      if x < y then some .lt else if x == y then some .eq
      else if y < x then some .gt else none
    | _, _ => none

/-- Whether the value is a number. -/
def isNumber : Value → Bool
  | .int _ => true
  | .float _ => true
  | _ => false

/-- Null for nothing, otherwise the value. -/
def ofOption : Option Value → Value
  | none => .null
  | some v => v

end Value

/-- A field is populated when it holds a value other than null. -/
def isPopulated : Option Value → Bool
  | none => false
  | some v => !v.isNull

end WorkflowGraph
