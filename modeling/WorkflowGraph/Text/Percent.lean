/-!
# Percent-encoded names

A text is written with letters, digits, `-`, `_` and `%` alone: every other byte of
its UTF-8 form becomes a percent sign with two hexadecimal digits. Reading such a
name also takes names that were written in another way, as long as their bytes
form a text.
-/

set_option autoImplicit false

namespace WorkflowGraph.Text.Percent

/-- The byte of a percent sign. -/
def percentSign : UInt8 := 37

/-- Whether a byte is written as it is. -/
def isPlain (b : UInt8) : Bool :=
  (48 ≤ b && b ≤ 57) || (65 ≤ b && b ≤ 90) || (97 ≤ b && b ≤ 122) || b == 45 || b == 95

/-- The hexadecimal digit of a number below sixteen. -/
def hexDigit (n : UInt8) : Char :=
  if n < 10 then Char.ofNat (48 + n.toNat) else Char.ofNat (55 + n.toNat)

/-- The characters that a byte is written with. -/
def encodeByte (b : UInt8) : List Char :=
  if isPlain b then [Char.ofNat b.toNat] else ['%', hexDigit (b / 16), hexDigit (b % 16)]

/-- The name of a text. -/
def encode (s : String) : String := String.ofList (s.toUTF8.toList.flatMap encodeByte)

/-- The number that a hexadecimal digit stands for. -/
def hexValue? (b : UInt8) : Option UInt8 :=
  if 48 ≤ b && b ≤ 57 then some (b - 48)
  else if 65 ≤ b && b ≤ 70 then some (b - 55)
  else if 97 ≤ b && b ≤ 102 then some (b - 87)
  else none

/-- The byte that two hexadecimal digits stand for. -/
def hexByte? (first second : UInt8) : Option UInt8 :=
  match hexValue? first, hexValue? second with
  | some a, some b => some (a * 16 + b)
  | _, _ => none

/-- The byte that two characters of a name stand for. In the place of the first digit a
plus sign may stand. -/
def nameByte? (first second : UInt8) : Option UInt8 :=
  if first = 43 then hexValue? second else hexByte? first second

/-- The bytes that the bytes of a name stand for. -/
def decodeBytes? : List UInt8 → Option (List UInt8)
  | [] => some []
  | b :: rest =>
    if b = percentSign then
      match rest with
      | first :: second :: more =>
        match nameByte? first second, decodeBytes? more with
        | some v, some bytes => some (v :: bytes)
        | _, _ => none
      | _ => none
    else (decodeBytes? rest).map (b :: ·)

/-- The text of a name, if its bytes form one. -/
def decode? (name : String) : Option String :=
  (decodeBytes? name.toUTF8.toList).bind fun bytes => String.fromUTF8? ⟨bytes.toArray⟩

end WorkflowGraph.Text.Percent
