import WorkflowGraph.Json.Document

/-!
# Reading JSON

`Json.document?` reads the document that a text spells, and `Json.read?` the value in it. Of
two fields with one name the later counts. Lists and objects of a value may be nested 127
deep. A number without fraction and exponent is an integer where it fits between
`Value.minInt` and `Value.maxInt`; every other number is its significand, rounded once to a
floating-point number and then scaled by a power of ten.
-/

set_option autoImplicit false

namespace WorkflowGraph.Json

/-- What is left of a text after something has been read from it. -/
abbrev Rest : Type := List Char

/-- Leave out the blanks at the start. -/
def skipBlanks : Rest → Rest
  | [] => []
  | c :: rest =>
    if c = ' ' ∨ c = '\t' ∨ c = '\n' ∨ c = '\r' then skipBlanks rest else c :: rest

/-- The value of a hexadecimal digit. -/
def hexValue? (c : Char) : Option Nat :=
  if '0' ≤ c ∧ c ≤ '9' then some (c.toNat - 48)
  else if 'a' ≤ c ∧ c ≤ 'f' then some (c.toNat - 87)
  else if 'A' ≤ c ∧ c ≤ 'F' then some (c.toNat - 55)
  else none

/-- Read the four digits of a character written by its number. -/
def readFour? : Rest → Option (Nat × Rest)
  | a :: b :: c :: d :: rest => do
    let a ← hexValue? a
    let b ← hexValue? b
    let c ← hexValue? c
    let d ← hexValue? d
    some (((a * 16 + b) * 16 + c) * 16 + d, rest)
  | _ => none

/-- Read what follows a backslash and the letter `u`. Two halves of a pair make
one character; a half alone is none. -/
def readUnicode? (cs : Rest) : Option (Option Char × Rest) := do
  let (first, rest) ← readFour? cs
  if 0xD800 ≤ first ∧ first ≤ 0xDBFF then
    match rest with
    | '\\' :: 'u' :: more => do
      let (second, after) ← readFour? more
      if 0xDC00 ≤ second ∧ second ≤ 0xDFFF then
        some (some (Char.ofNat (0x10000 + (first - 0xD800) * 0x400 + (second - 0xDC00))), after)
      else some (none, rest)
    | _ => some (none, rest)
  else if 0xDC00 ≤ first ∧ first ≤ 0xDFFF then some (none, rest)
  else some (some (Char.ofNat first), rest)

/-- The character that a letter after a backslash stands for. -/
def shortEscape? (c : Char) : Option Char :=
  match c with
  | '"' => some '"'
  | '\\' => some '\\'
  | '/' => some '/'
  | 'b' => some '\x08'
  | 'f' => some '\x0c'
  | 'n' => some '\n'
  | 'r' => some '\r'
  | 't' => some '\t'
  | _ => none

/-- A character in front of those read so far, if all of them are characters. -/
def prepend (c : Option Char) (done : Option (List Char)) : Option (List Char) :=
  match c, done with
  | some c, some done => some (c :: done)
  | _, _ => none

/-- Read a text after its opening quote, at most `fuel` characters of it. The
characters read so far are kept in reverse; there is no text where one of them is none. -/
def readText? : Nat → Option (List Char) → Rest → Option (Option String × Rest)
  | 0, _, _ => none
  | _ + 1, _, [] => none
  | fuel + 1, done, c :: rest =>
    if c = '"' then some (done.map fun cs => String.ofList cs.reverse, rest)
    else if c = '\\' then
      match rest with
      | [] => none
      | 'u' :: more =>
        match readUnicode? more with
        | none => none
        | some (d, rest) => readText? fuel (prepend d done) rest
      | e :: more =>
        match shortEscape? e with
        | none => none
        | some d => readText? fuel (prepend d done) more
    else if c.toNat < 32 then none
    else readText? fuel (prepend c done) rest

/-- Whether a character is a decimal digit. -/
def isDigit (c : Char) : Bool := '0' ≤ c && c ≤ '9'

/-- The digits at the start of a text, and what follows them. -/
def takeDigits (cs : Rest) : List Nat × Rest :=
  ((cs.takeWhile isDigit).map fun c => c.toNat - 48, cs.dropWhile isDigit)

/-- The largest significand that is kept digit by digit. -/
def maxSignificand : Nat := 18446744073709551615

/-- Add digits to a significand while it fits; gives the number of digits added
and the digits that did not fit. -/
def accumulate : Nat → Nat → List Nat → Nat × Nat × List Nat
  | significand, used, [] => (significand, used, [])
  | significand, used, d :: ds =>
    if maxSignificand < significand * 10 + d then (significand, used, d :: ds)
    else accumulate (significand * 10 + d) (used + 1) ds

/-- Divide by large powers of ten until the exponent is a small one. -/
def scaleDown : Nat → Float → Nat → Float
  | 0, f, _ => f
  | fuel + 1, f, e =>
    if e ≤ 308 then f / Float.ofScientific 1 false e
    else if f == 0.0 then f
    else scaleDown fuel (f / Float.ofScientific 1 false 308) (e - 308)

/-- The number `significand * 10 ^ exponent`, or nothing where it is too large. -/
def scaled? (negative : Bool) (significand : Nat) (exponent : Int) : Option Float := do
  let f := significand.toUInt64.toFloat
  let f : Float ←
    if 0 ≤ exponent then
      if exponent ≤ 308 then
        let g : Float := f * Float.ofScientific 1 false exponent.toNat
        if g.isInf then none else some g
      else if f == 0.0 then some f
      else none
    else some (scaleDown (exponent.natAbs / 308 + 1) f exponent.natAbs)
  some (if negative then -f else f)

/-- Read an exponent and finish the number. There is no value where it is too large. -/
def readExponent? (negative : Bool) (significand : Nat) (exponent : Int) (cs : Rest) :
    Option (Option Value × Rest) := do
  let (down, cs) := match cs with
    | '+' :: rest => (false, rest)
    | '-' :: rest => (true, rest)
    | _ => (false, cs)
  let (digits, rest) := takeDigits cs
  if digits.isEmpty then none
  else
    let e : Nat := digits.foldl (fun n d => n * 10 + d) 0
    if 2147483647 < e then
      if significand ≠ 0 ∧ !down then some (none, rest)
      else some (some (.float (if negative then -0.0 else 0.0)), rest)
    else
      let power : Int := if down then -(e : Int) else (e : Int)
      some ((scaled? negative significand (exponent + power)).map .float, rest)

/-- Finish a number whose digits have been read. -/
def finishNumber? (negative : Bool) (significand : Nat) (exponent : Int) (cs : Rest) :
    Option (Option Value × Rest) :=
  match cs with
  | 'e' :: rest => readExponent? negative significand exponent rest
  | 'E' :: rest => readExponent? negative significand exponent rest
  | _ => some ((scaled? negative significand exponent).map .float, cs)

/-- Read a number whose sign has been read. -/
def readNumber? (negative : Bool) (cs : Rest) : Option (Option Value × Rest) := do
  let (digits, rest) := takeDigits cs
  match digits with
  | [] => none
  | 0 :: _ :: _ => none
  | digits =>
    let (significand, _, left) := accumulate 0 0 digits
    match rest with
    | '.' :: more =>
      let (fraction, rest) := takeDigits more
      if fraction.isEmpty then none
      else
        let (significand, used, _) := accumulate significand 0 fraction
        finishNumber? negative significand ((left.length : Int) - used) rest
    | 'e' :: more => readExponent? negative significand left.length more
    | 'E' :: more => readExponent? negative significand left.length more
    | _ =>
      if !left.isEmpty then finishNumber? negative significand left.length rest
      else if !negative then some (some (.int significand), rest)
      else if significand = 0 then some (some (.float (-0.0)), rest)
      else if significand ≤ Value.minInt.natAbs then some (some (.int (-significand)), rest)
      else some (some (.float (-(significand.toUInt64.toFloat))), rest)

mutual

/-- Read a part of a document; `depth` is one more than the levels that may still be opened. -/
def readPart? : Nat → Nat → Rest → Option (Document × Rest)
  | 0, _, _ => none
  | fuel + 1, depth, cs =>
    match skipBlanks cs with
    | 'n' :: 'u' :: 'l' :: 'l' :: rest => some (.scalar (some .null), rest)
    | 't' :: 'r' :: 'u' :: 'e' :: rest => some (.scalar (some (.bool true)), rest)
    | 'f' :: 'a' :: 'l' :: 's' :: 'e' :: rest => some (.scalar (some (.bool false)), rest)
    | '"' :: rest =>
      (readText? (rest.length + 1) (some []) rest).map fun p => (.scalar (p.1.map .text), p.2)
    | '-' :: rest => (readNumber? true rest).map fun p => (.scalar p.1, p.2)
    | '[' :: rest =>
      if depth ≤ 1 then none
      else
        match skipBlanks rest with
        | ']' :: rest => some (.list [], rest)
        | rest => (readItems? fuel (depth - 1) [] rest).map fun p => (.list p.1, p.2)
    | '{' :: rest =>
      if depth ≤ 1 then none
      else
        match skipBlanks rest with
        | '}' :: rest => some (.object [], rest)
        | rest => (readMembers? fuel (depth - 1) [] rest).map fun p => (.object p.1, p.2)
    | cs => (readNumber? false cs).map fun p => (.scalar p.1, p.2)

/-- Read the items of a list up to its closing bracket; `done` holds the items
read so far in reverse. -/
def readItems? : Nat → Nat → List Document → Rest → Option (List Document × Rest)
  | 0, _, _, _ => none
  | fuel + 1, depth, done, cs =>
    match readPart? fuel depth cs with
    | none => none
    | some (d, rest) =>
      match skipBlanks rest with
      | ',' :: rest => readItems? fuel depth (d :: done) rest
      | ']' :: rest => some ((d :: done).reverse, rest)
      | _ => none

/-- Read the fields of an object up to its closing brace; `done` holds the fields read so far
in reverse. -/
def readMembers? : Nat → Nat → List (Option String × Document) → Rest →
    Option (List (Option String × Document) × Rest)
  | 0, _, _, _ => none
  | fuel + 1, depth, done, cs =>
    match skipBlanks cs with
    | '"' :: rest =>
      match readText? (rest.length + 1) (some []) rest with
      | none => none
      | some (name, rest) =>
        match skipBlanks rest with
        | ':' :: rest =>
          match readPart? fuel depth rest with
          | none => none
          | some (d, rest) =>
            match skipBlanks rest with
            | ',' :: rest => readMembers? fuel depth ((name, d) :: done) rest
            | '}' :: rest => some (((name, d) :: done).reverse, rest)
            | _ => none
        | _ => none
    | _ => none

end

/-- The number of levels of lists and objects that a value may have. -/
def maxLevels : Nat := 127

/-- Read a text that spells one document and nothing else, at most `levels` of lists and
objects deep. -/
def document? (levels : Nat) (text : String) : Option Document :=
  let cs := text.toList
  match readPart? (2 * cs.length + 2) (levels + 1) cs with
  | some (d, rest) => if (skipBlanks rest).isEmpty then some d else none
  | none => none

/-- Read a text that spells one value and nothing else. -/
def read? (text : String) : Option Value :=
  (document? maxLevels text).bind (Document.value? maxLevels .any)

/-- Read what a form asks for in a text that spells one document. -/
def readForm? (form : Form) (text : String) : Option Value :=
  (document? text.length text).bind (Document.value? maxLevels form)

end WorkflowGraph.Json
