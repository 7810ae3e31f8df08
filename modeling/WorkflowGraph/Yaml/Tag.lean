import WorkflowGraph.Text.Percent

/-!
# Tags of YAML nodes

A tag is read as bytes: a percent sign with two hexadecimal digits stands for one byte,
and the bytes of a character have to be written one after the other. The bytes need not
form a text, since only their number is checked; a zero byte ends the tag.
-/

set_option autoImplicit false

namespace WorkflowGraph.Yaml

/-- A tag, or a part of one. -/
structure Tag where
  bytes : List UInt8
  deriving DecidableEq, Repr

namespace Tag

/-- The tag that a text spells. -/
def ofText (s : String) : Tag := ⟨s.toUTF8.toList⟩

/-- The byte of the exclamation mark that the tags of a document's own start with. -/
def mark : UInt8 := 33

/-- The tag that is nothing but its mark. -/
def bare : Tag := ⟨[mark]⟩

/-- How many bytes of a character come after its first one. -/
def following? (first : UInt8) : Option Nat :=
  if first &&& 0x80 = 0 then some 0
  else if first &&& 0xE0 = 0xC0 then some 1
  else if first &&& 0xF0 = 0xE0 then some 2
  else if first &&& 0xF8 = 0xF0 then some 3
  else none

/-- The bytes that the characters of a tag stand for. The number tells how many bytes of
a character still have to follow. -/
def decode? : Nat → List UInt8 → Option (List UInt8)
  | 0, [] => some []
  | _ + 1, [] => none
  | expected, b :: rest =>
    if b = Text.Percent.percentSign then
      match rest with
      | first :: second :: more => do
        let v ← Text.Percent.hexByte? first second
        let expected ← match expected with
          | 0 => following? v
          | n + 1 => if v &&& 0xC0 = 0x80 then some n else none
        (decode? expected more).map (v :: ·)
      | _ => none
    else if expected = 0 then (decode? 0 rest).map (b :: ·)
    else none

/-- The part of a tag that characters write. -/
def ofWritten? (cs : List Char) : Option Tag :=
  (decode? 0 (String.ofList cs).toUTF8.toList).map fun bytes => ⟨bytes.takeWhile (· ≠ 0)⟩

/-- A tag in two parts. -/
def append (start rest : Tag) : Tag := ⟨start.bytes ++ rest.bytes⟩

/-- Whether a tag is one of the document's own. -/
def isOwn (t : Tag) : Bool := t.bytes.head? == some mark

/-- The name of a tag of the document's own: the text behind the mark. A tag that is nothing
but its mark is named by the mark; bytes that form no text name nothing. -/
def ownName? (t : Tag) : Option String :=
  match t.bytes with
  | b :: rest =>
    if b ≠ mark then none
    else if rest.isEmpty then some "!"
    else String.fromUTF8? ⟨rest.toArray⟩
  | [] => none

/-- The start of the tags of the core schema. -/
def core : String := "tag:yaml.org,2002:"

/-- A tag of the core schema. -/
def ofCore (name : String) : Tag := ofText (core ++ name)

end Tag

end WorkflowGraph.Yaml
