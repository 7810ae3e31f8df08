import WorkflowGraph.Yaml.Tag

/-!
# Tokens of YAML documents

`Yaml.scan?` splits a text into the tokens of the YAML grammar. Indentation
becomes tokens that open and close blocks. Whether a scalar is a key is known
only when the colon behind it is read, so a place is kept in front of every
scalar that could be one; places that turn out to be none are left out at the end.
-/

set_option autoImplicit false

namespace WorkflowGraph.Yaml

/-- How a scalar is written: in the open, as a block whose lines are kept, or in quotes or
as a block whose lines are folded. -/
inductive ScalarStyle where
  | plain
  | literal
  | quoted
  deriving DecidableEq, Repr

/-- A token of the YAML grammar. -/
inductive Token where
  | streamEnd
  | versionDirective
  | tagDirective (handle : String) (start : Tag)
  | documentStart
  | documentEnd
  | blockSequenceStart
  | blockMappingStart
  | blockEnd
  | flowSequenceStart
  | flowSequenceEnd
  | flowMappingStart
  | flowMappingEnd
  | blockEntry
  | flowEntry
  | key
  | value
  | alias (name : String)
  | anchor (name : String)
  | tag (handle : String) (suffix : Tag)
  | scalar (text : String) (style : ScalarStyle)
  deriving DecidableEq, Repr

/-- A place among the tokens: a token, or room for the tokens that open a key. -/
inductive Slot where
  | token (t : Token)
  | unresolved
  | opensKey
  | opensMappingAndKey
  deriving DecidableEq, Repr

/-- The tokens that a place stands for. -/
def Slot.tokens : Slot → List Token
  | .token t => [t]
  | .unresolved => []
  | .opensKey => [.key]
  | .opensMappingAndKey => [.blockMappingStart, .key]

/-- Whether a character breaks a line. -/
def isBreak (c : Char) : Bool :=
  c == '\n' || c == '\r' || c == '\u0085' || c == '\u2028' || c == '\u2029'

/-- Whether a character is a space or a tab. -/
def isBlank (c : Char) : Bool := c == ' ' || c == '\t'

/-- Whether a character is a decimal digit. -/
def isDigit (c : Char) : Bool := '0' ≤ c && c ≤ '9'

/-- Whether a character may stand in the name of an anchor. -/
def isNameChar (c : Char) : Bool :=
  ('a' ≤ c && c ≤ 'z') || ('A' ≤ c && c ≤ 'Z') || isDigit c || c == '_' || c == '-'

/-- Whether a document may hold a character. -/
def isPrintable (c : Char) : Bool :=
  let n := c.toNat
  n == 9 || n == 10 || n == 13 || (32 ≤ n && n ≤ 126) || n == 0x85 ||
    (0xA0 ≤ n && n ≤ 0xD7FF) || (0xE000 ≤ n && n ≤ 0xFFFD) || 0x10000 ≤ n

/-- The rest of a text, and where in the text it starts: after how many bytes, in which
line, and after how many characters of the line. -/
structure Cursor where
  rest : List Char
  index : Nat
  line : Nat
  column : Nat

namespace Cursor

/-- The next character. -/
def head? (c : Cursor) : Option Char := c.rest.head?

/-- The character `n` places ahead. -/
def ahead? (c : Cursor) (n : Nat) : Option Char := c.rest[n]?

/-- Whether the next character is the given one. -/
def sees (c : Cursor) (x : Char) : Bool := c.head? == some x

/-- Whether the character `n` places ahead is a blank, a break, or the end. -/
def gapAt (c : Cursor) (n : Nat) : Bool :=
  match c.ahead? n with
  | none => true
  | some x => isBlank x || isBreak x

/-- The number of bytes that characters take up. -/
def width (cs : List Char) : Nat := cs.foldl (fun n x => n + x.utf8Size) 0

/-- Pass over one character that breaks no line. -/
def skip (c : Cursor) : Cursor :=
  match c.rest with
  | [] => c
  | x :: rest => ⟨rest, c.index + x.utf8Size, c.line, c.column + 1⟩

/-- Pass over several characters that break no line. -/
def skipMany (c : Cursor) (n : Nat) : Cursor :=
  ⟨c.rest.drop n, c.index + width (c.rest.take n), c.line, c.column + n⟩

/-- Pass over the characters that satisfy a test, none of which breaks a line. -/
def skipWhile (c : Cursor) (p : Char → Bool) : Cursor :=
  c.skipMany (c.rest.takeWhile p).length

/-- Pass over a line break, and tell the text that it stands for. -/
def takeBreak (c : Cursor) : String × Cursor :=
  match c.rest with
  | '\r' :: '\n' :: rest => ("\n", ⟨rest, c.index + 2, c.line + 1, 0⟩)
  | x :: rest =>
    let text := if x == '\u2028' || x == '\u2029' then String.singleton x else "\n"
    (text, ⟨rest, c.index + x.utf8Size, c.line + 1, 0⟩)
  | [] => ("", c)

/-- Whether a mark of three equal characters stands alone at the start of a line. -/
def documentMark (c : Cursor) (x : Char) : Bool :=
  c.column == 0 && c.sees x && c.ahead? 1 == some x && c.ahead? 2 == some x && c.gapAt 3

end Cursor

/-- A scalar that may turn out to be a key. -/
structure PossibleKey where
  required : Bool
  place : Nat
  index : Nat
  line : Nat
  column : Nat

/-- The state of the scanner. -/
structure Scanner where
  cursor : Cursor
  slots : Array Slot
  indent : Int
  indents : List Int
  flow : Nat
  keys : List (Option PossibleKey)
  keyAllowed : Bool

namespace Scanner

/-- Add a token. -/
def push (s : Scanner) (t : Token) : Scanner := { s with slots := s.slots.push (.token t) }

/-- Pass over one character. -/
def skip (s : Scanner) : Scanner := { s with cursor := s.cursor.skip }

/-- Close the blocks that are indented deeper than a column. -/
def unrollTo (s : Scanner) (column : Int) : Scanner :=
  if s.flow ≠ 0 then s else close s.indents s
where
  /-- Close one block per indentation. -/
  close : List Int → Scanner → Scanner
    | [], s => s
    | outer :: more, s =>
      if column < s.indent then
        let slots := s.slots.push (.token .blockEnd)
        close more { s with slots, indent := outer, indents := more }
      else s

/-- Open a block at a column, if it is deeper than the current one. -/
def rollTo (s : Scanner) (column : Nat) (t : Token) : Scanner :=
  if s.flow = 0 ∧ s.indent < column then
    { s with slots := s.slots.push (.token t), indent := column, indents := s.indent :: s.indents }
  else s

/-- Give up the current possible key, unless it is required. -/
def dropKey? (s : Scanner) : Option Scanner :=
  match s.keys with
  | some k :: rest => if k.required then none else some { s with keys := none :: rest }
  | _ => some s

/-- Note that a key may start here. -/
def saveKey? (s : Scanner) : Option Scanner :=
  if s.keyAllowed then do
    let s ← s.dropKey?
    let required := s.flow = 0 ∧ s.indent = (s.cursor.column : Int)
    let k : PossibleKey :=
      ⟨required, s.slots.size, s.cursor.index, s.cursor.line, s.cursor.column⟩
    some { s with slots := s.slots.push .unresolved, keys := some k :: s.keys.drop 1 }
  else some s

/-- Give up the possible keys that are on an earlier line, or more than 1024 bytes back. -/
def expireKeys? (s : Scanner) : Option Scanner := do
  let keys ← s.keys.mapM fun k =>
    match k with
    | none => some none
    | some k =>
      if k.line < s.cursor.line ∨ k.index + 1024 < s.cursor.index then
        if k.required then none else some none
      else some (some k)
  some { s with keys := keys }

/-- Pass over blanks, comments and line breaks; one round per line. A mark of the byte
order may stand at the start of a line and takes up a column. -/
def skipGap : Nat → Scanner → Scanner
  | 0, s => s
  | fuel + 1, s =>
    let tabs := s.flow ≠ 0 ∨ ¬s.keyAllowed
    let c := s.cursor
    let c := if c.column = 0 ∧ c.sees '\uFEFF' then c.skip else c
    let c := c.skipWhile fun x => x == ' ' || (x == '\t' && tabs)
    let c := if c.sees '#' then c.skipWhile (fun x => !isBreak x) else c
    match c.head? with
    | some x =>
      if isBreak x then
        let s := { s with cursor := c.takeBreak.2 }
        skipGap fuel (if s.flow = 0 then { s with keyAllowed := true } else s)
      else { s with cursor := c }
    | none => { s with cursor := c }

/-- Read the rest of a line that may hold nothing but a comment. -/
def endLine? (c : Cursor) : Option Cursor :=
  let c := c.skipWhile isBlank
  let c := if c.sees '#' then c.skipWhile (fun x => !isBreak x) else c
  match c.head? with
  | none => some c
  | some x => if isBreak x then some c.takeBreak.2 else none

/-- Whether a character may stand in the suffix of a tag. -/
def isTagChar (c : Char) : Bool :=
  isNameChar c || [';', '/', '?', ':', '@', '&', '=', '+', '$', '.', '%', '!', '~', '*',
    '\'', '(', ')'].contains c

/-- Whether a character may stand in a tag that is written out. -/
def isUriChar (c : Char) : Bool := isTagChar c || c == ',' || c == '[' || c == ']'

/-- Read a tag: its handle and its suffix. -/
def scanTag? (inFlow : Bool) (c : Cursor) : Option (Token × Cursor) := do
  let (t, c) ←
    if c.ahead? 1 == some '<' then
      let c := c.skipMany 2
      let uri := c.rest.takeWhile isUriChar
      let c := c.skipMany uri.length
      if uri.isEmpty ∨ !c.sees '>' then none
      else
        let uri ← Tag.ofWritten? uri
        some (Token.tag "" uri, c.skip)
    else
      let name := (c.rest.drop 1).takeWhile isNameChar
      if c.ahead? (name.length + 1) == some '!' then
        let c := c.skipMany (name.length + 2)
        let suffix := c.rest.takeWhile isTagChar
        if suffix.isEmpty then none
        else
          let handle := "!" ++ String.ofList name ++ "!"
          let c := c.skipMany suffix.length
          let suffix ← Tag.ofWritten? suffix
          some (Token.tag handle suffix, c)
      else
        let c := c.skip
        let suffix := c.rest.takeWhile isTagChar
        let c := c.skipMany suffix.length
        let suffix ← Tag.ofWritten? suffix
        if suffix.bytes.isEmpty then some (Token.tag "" .bare, c)
        else some (Token.tag "!" suffix, c)
  if c.gapAt 0 ∨ (inFlow ∧ c.sees ',') then some (t, c) else none

/-- The number of a part of a version, which has one to nine digits. -/
def versionPart? (digits : List Char) : Option Nat :=
  if digits.isEmpty ∨ 9 < digits.length then none
  else some (digits.foldl (fun n d => n * 10 + (d.toNat - 48)) 0)

/-- Read a directive up to the end of its line. The versions of the format are 1.1 and 1.2. -/
def scanDirective? (c : Cursor) : Option (Token × Cursor) := do
  let c := c.skip
  let name := String.ofList (c.rest.takeWhile isNameChar)
  let c := c.skipMany name.length
  if !c.gapAt 0 then none
  else if name = "YAML" then
    let c := c.skipWhile isBlank
    let major := c.rest.takeWhile isDigit
    let c := c.skipMany major.length
    let minor := (c.rest.drop 1).takeWhile isDigit
    if versionPart? major ≠ some 1 ∨ !c.sees '.' then none
    else if versionPart? minor ≠ some 1 ∧ versionPart? minor ≠ some 2 then none
    else
      let c ← endLine? (c.skipMany (minor.length + 1))
      some (.versionDirective, c)
  else if name = "TAG" then
    let c := c.skipWhile isBlank
    let inner := (c.rest.drop 1).takeWhile isNameChar
    if !c.sees '!' then none
    else
      let closed := c.ahead? (inner.length + 1) == some '!'
      if !closed ∧ !inner.isEmpty then none
      else
        let handle :=
          if closed then "!" ++ String.ofList inner ++ "!" else "!"
        let c := c.skipMany handle.length
        if !(c.head?.any isBlank) then none
        else
          let c := c.skipWhile isBlank
          let start := c.rest.takeWhile isUriChar
          let c := c.skipMany start.length
          if start.isEmpty ∨ !c.gapAt 0 then none
          else
            let c ← endLine? c
            let start ← Tag.ofWritten? start
            some (.tagDirective handle start, c)
  else none

/-- The line breaks that have been read but not yet added to a scalar. -/
structure Breaks where
  leading : String
  trailing : String

/-- What line breaks inside a scalar stand for: one break is a space, further
breaks are kept. -/
def Breaks.fold (b : Breaks) : String :=
  if b.leading.startsWith "\n" then (if b.trailing.isEmpty then " " else b.trailing)
  else b.leading ++ b.trailing

/-- Pass over indentation and empty lines in a block scalar. The indentation is
found from the first line where it is not given. Gives the line breaks that were
passed over and the deepest column. -/
def blockBreaks? (indent : Option Nat) : Nat → Nat → String → Cursor →
    Option (String × Nat × Cursor)
  | 0, _, _, _ => none
  | fuel + 1, deepest, breaks, c =>
    let spaces := (c.rest.takeWhile (· == ' ')).length
    let c := match indent with
      | none => c.skipMany spaces
      | some n => c.skipMany (min spaces (n - c.column))
    let deepest := max deepest c.column
    let short : Bool := match indent with
      | none => true
      | some n => decide (c.column < n)
    if short && c.sees '\t' then none
    else
      match c.head? with
      | some x =>
        if isBreak x then
          let (text, c) := c.takeBreak
          blockBreaks? indent fuel deepest (breaks ++ text) c
        else some (breaks, deepest, c)
      | none => some (breaks, deepest, c)

/-- Read the lines of a block scalar. `leading` is the break before the current
line, `trailing` the empty lines after it, and `wasBlank` tells whether the line
before started with a blank. -/
def blockLines? (literal : Bool) (indent : Nat) :
    Nat → Bool → String → String → String → Cursor → Option (String × String × String × Cursor)
  | 0, _, _, _, _, _ => none
  | fuel + 1, wasBlank, text, leading, trailing, c =>
    if c.column = indent ∧ c.head?.isSome then
      let blank := c.head?.any isBlank
      let joint :=
        if !literal ∧ leading.startsWith "\n" ∧ !wasBlank ∧ !blank then
          (if trailing.isEmpty then " " else "")
        else leading
      let line := c.rest.takeWhile fun x => !isBreak x
      let c := c.skipMany line.length
      let (leading, c) := c.takeBreak
      match blockBreaks? (some indent) (fuel + 1) 0 "" c with
      | none => none
      | some (breaks, _, c) =>
        blockLines? literal indent fuel blank (text ++ joint ++ trailing ++ String.ofList line)
          leading breaks c
    else some (text, leading, trailing, c)

/-- How the line breaks at the end of a block scalar are treated. -/
inductive Chomping where
  | strip
  | clip
  | keep
  deriving DecidableEq

/-- Read the indicators behind the mark of a block scalar. -/
def blockHeader? (c : Cursor) : Option (Chomping × Option Nat × Cursor) :=
  let sign? : Option Char → Option Chomping
    | some '+' => some .keep
    | some '-' => some .strip
    | _ => none
  let digit? : Option Char → Option (Option Nat)
    | some x => if isDigit x then some (if x = '0' then none else some (x.toNat - 48)) else none
    | none => none
  match sign? c.head? with
  | some chomping =>
    match digit? (c.ahead? 1) with
    | some (some n) => some (chomping, some n, c.skipMany 2)
    | some none => none
    | none => some (chomping, none, c.skip)
  | none =>
    match digit? c.head? with
    | some (some n) =>
      match sign? (c.ahead? 1) with
      | some chomping => some (chomping, some n, c.skipMany 2)
      | none => some (.clip, some n, c.skip)
    | some none => none
    | none => some (.clip, none, c)

/-- Read a block scalar whose mark has been passed; `outer` is the indentation of
the block around it, and the text has no more than `limit` characters. -/
def scanBlock? (limit : Nat) (literal : Bool) (outer : Int) (c : Cursor) :
    Option (Token × Cursor) := do
  let (chomping, increment, c) ← blockHeader? c
  let c ← endLine? c
  let given : Option Nat := increment.map fun n => if 0 ≤ outer then outer.toNat + n else n
  let (breaks, deepest, c) ← blockBreaks? given (limit + 1) 0 "" c
  let indent : Nat := match given with
    | some n => n
    | none => max (max deepest (outer + 1).toNat) 1
  let (text, leading, trailing, c) ← blockLines? literal indent (limit + 1) false "" "" breaks c
  let text := if chomping = .strip then text else text ++ leading
  let text := if chomping = .keep then text ++ trailing else text
  some (.scalar text (if literal then .literal else .quoted), c)

/-- The value of a hexadecimal digit. -/
def hexValue? (c : Char) : Option Nat :=
  if isDigit c then some (c.toNat - 48)
  else if 'a' ≤ c ∧ c ≤ 'f' then some (c.toNat - 87)
  else if 'A' ≤ c ∧ c ≤ 'F' then some (c.toNat - 55)
  else none

/-- Read a character written by its number with a given count of digits. -/
def coded? (count : Nat) (cs : List Char) : Option Char := do
  if (cs.take count).length < count then none
  else
    let n ← (cs.take count).foldlM (fun n c => (hexValue? c).map fun d => n * 16 + d) 0
    if (0xD800 ≤ n ∧ n ≤ 0xDFFF) ∨ 0x10FFFF < n then none else some (Char.ofNat n)

/-- The character behind a backslash, and how many characters the escape takes. -/
def escape? (cs : List Char) : Option (Char × Nat) :=
  match cs with
  | '0' :: _ => some ('\x00', 2)
  | 'a' :: _ => some ('\x07', 2)
  | 'b' :: _ => some ('\x08', 2)
  | 't' :: _ => some ('\t', 2)
  | '\t' :: _ => some ('\t', 2)
  | 'n' :: _ => some ('\n', 2)
  | 'v' :: _ => some ('\x0b', 2)
  | 'f' :: _ => some ('\x0c', 2)
  | 'r' :: _ => some ('\r', 2)
  | 'e' :: _ => some ('\x1b', 2)
  | ' ' :: _ => some (' ', 2)
  | '"' :: _ => some ('"', 2)
  | '/' :: _ => some ('/', 2)
  | '\\' :: _ => some ('\\', 2)
  | 'N' :: _ => some ('\u0085', 2)
  | '_' :: _ => some ('\u00a0', 2)
  | 'L' :: _ => some ('\u2028', 2)
  | 'P' :: _ => some ('\u2029', 2)
  | 'x' :: rest => (coded? 2 rest).map fun c => (c, 4)
  | 'u' :: rest => (coded? 4 rest).map fun c => (c, 6)
  | 'U' :: rest => (coded? 8 rest).map fun c => (c, 10)
  | _ => none

/-- Pass over blanks and breaks inside a scalar. Gives the blanks before the first
break, or the breaks. `folded` tells whether a break has been passed already. -/
def foldGap : Nat → Bool → List Char → Breaks → Cursor → Bool × List Char × Breaks × Cursor
  | 0, folded, blanks, b, c => (folded, blanks, b, c)
  | fuel + 1, folded, blanks, b, c =>
    match c.head? with
    | some x =>
      if isBlank x then foldGap fuel folded (if folded then blanks else x :: blanks) b c.skip
      else if isBreak x then
        let (text, c) := c.takeBreak
        if folded then foldGap fuel true blanks { b with trailing := b.trailing ++ text } c
        else foldGap fuel true [] { b with leading := text } c
      else (folded, blanks, b, c)
    | none => (folded, blanks, b, c)

/-- Read a quoted scalar after its opening quote. The characters read so far stand
in reverse. A backslash before a line break joins the two lines. -/
def quotedBody? (double : Bool) : Nat → List Char → Cursor → Option (String × Cursor)
  | 0, _, _ => none
  | fuel + 1, done, c =>
    if c.documentMark '-' ∨ c.documentMark '.' then none
    else
      match c.rest with
      | [] => none
      | x :: rest =>
        if isBlank x || isBreak x then
          let (folded, blanks, b, c) := foldGap fuel false [] ⟨"", ""⟩ c
          let text := if folded then b.fold.toList.reverse else blanks
          quotedBody? double fuel (text ++ done) c
        else if !double && x == '\'' then
          if rest.head? == some '\'' then quotedBody? double fuel ('\'' :: done) (c.skipMany 2)
          else some (String.ofList done.reverse, c.skip)
        else if double && x == '"' then some (String.ofList done.reverse, c.skip)
        else if double && x == '\\' then
          if rest.head?.any isBreak then
            let (_, _, b, c) := foldGap fuel true [] ⟨"", ""⟩ c.skip.takeBreak.2
            quotedBody? double fuel (b.fold.toList.reverse ++ done) c
          else
            match escape? rest with
            | none => none
            | some (e, width) => quotedBody? double fuel (e :: done) (c.skipMany width)
        else quotedBody? double fuel (x :: done) c.skip

/-- Whether a character ends a plain scalar inside brackets. -/
def endsFlowPlain (c : Char) : Bool :=
  c == ',' || c == '[' || c == ']' || c == '{' || c == '}'

/-- Read a plain scalar. `indent` is the least column that its lines may start at.
Gives the text, whether a line break has been passed behind it, and the rest. -/
def plainBody? (inFlow : Bool) (indent : Int) :
    Nat → Bool → List Char → List Char → Cursor → Option (List Char × Bool × Cursor)
  | 0, _, _, _, _ => none
  | fuel + 1, folded, gap, done, c =>
    match c.head? with
    | none => some (done, folded, c)
    | some x =>
      if isBlank x || isBreak x then
        let (folded, blanks, b, after) := foldGap (fuel + 1) false [] ⟨"", ""⟩ c
        if folded ∧ tabTooEarly fuel false c then none
        else
          let gap := if folded then b.fold.toList.reverse else blanks
          if (!inFlow ∧ (after.column : Int) < indent) ∨ after.documentMark '-' ∨
              after.documentMark '.' ∨ after.sees '#' then
            some (done, folded, after)
          else plainBody? inFlow indent fuel folded gap done after
      else if inFlow ∧ x = ':' ∧ (c.ahead? 1).any (fun y => endsFlowPlain y || y == '?') then none
      else if (x = ':' ∧ c.gapAt 1) ∨ (inFlow ∧ endsFlowPlain x) then some (done, folded, c)
      else plainBody? inFlow indent fuel false [] (x :: gap ++ done) c.skip
where
  /-- Whether a tab stands before the least column of a further line. The flag tells whether
  a line break has been passed. -/
  tabTooEarly : Nat → Bool → Cursor → Bool
    | 0, _, _ => false
    | fuel + 1, newLine, c =>
      match c.head? with
      | some x =>
        if isBreak x then tabTooEarly fuel true c.takeBreak.2
        else if isBlank x then
          if newLine ∧ (c.column : Int) < indent ∧ x = '\t' then true
          else tabTooEarly fuel newLine c.skip
        else false
      | none => false

/-- Start a collection in brackets. -/
def openFlow? (s : Scanner) (t : Token) : Option Scanner := do
  let s ← s.saveKey?
  some { (s.skip.push t) with keys := none :: s.keys, flow := s.flow + 1, keyAllowed := true }

/-- End a collection in brackets. -/
def closeFlow? (s : Scanner) (t : Token) : Option Scanner := do
  let s ← s.dropKey?
  let s := if s.flow = 0 then s else { s with flow := s.flow - 1, keys := s.keys.drop 1 }
  some { (s.skip.push t) with keyAllowed := false }

/-- Read the colon that separates a key from its value. -/
def colon? (s : Scanner) : Option Scanner :=
  match s.keys with
  | some k :: rest =>
    let opens := s.flow = 0 ∧ s.indent < (k.column : Int)
    let s := { s with keys := none :: rest, keyAllowed := false }
    let s :=
      if opens then
        { s with
          slots := s.slots.setIfInBounds k.place .opensMappingAndKey
          indent := k.column
          indents := s.indent :: s.indents }
      else { s with slots := s.slots.setIfInBounds k.place .opensKey }
    some (s.skip.push .value)
  | _ =>
    if s.flow = 0 then
      if !s.keyAllowed then none
      else
        let s := s.rollTo s.cursor.column .blockMappingStart
        some { (s.skip.push .value) with keyAllowed := true }
    else some { (s.skip.push .value) with keyAllowed := false }

/-- Read a scalar that may be a key. -/
def keyable? (s : Scanner) (read : Cursor → Option (Token × Cursor)) : Option Scanner := do
  let s ← s.saveKey?
  let (t, c) ← read s.cursor
  some { (s.push t) with cursor := c, keyAllowed := false }

/-- Read the name behind a mark of an anchor or an alias. -/
def scanName? (make : String → Token) (c : Cursor) : Option (Token × Cursor) :=
  let name := (c.rest.drop 1).takeWhile isNameChar
  let after := c.skipMany (name.length + 1)
  let ends := after.gapAt 0 ||
    (after.head?.any fun x => ['?', ':', ',', ']', '}', '%', '@', '`'].contains x)
  if name.isEmpty || !ends then none else some (make (String.ofList name), after)

/-- Whether a plain scalar may start here. -/
def startsPlain (inFlow : Bool) (c : Cursor) : Bool :=
  match c.head? with
  | none => false
  | some x =>
    let indicator := isBlank x || isBreak x || ['-', '?', ':', ',', '[', ']', '{', '}', '#', '&',
      '*', '!', '|', '>', '\'', '"', '%', '@', '`'].contains x
    !indicator || (x == '-' && !(c.ahead? 1).any isBlank) ||
      (!inFlow && (x == '?' || x == ':') && !c.gapAt 1)

/-- Read the next token; gives nothing where no token can start, and tells whether
the text has ended. No more than `limit` characters are left. -/
def fetch? (limit : Nat) (s : Scanner) : Option (Scanner × Bool) := do
  let s := s.skipGap (limit + 1)
  let s ← s.expireKeys?
  let s := s.unrollTo s.cursor.column
  let c := s.cursor
  let inFlow := s.flow ≠ 0
  match c.head? with
  | none =>
    let s ← (s.unrollTo (-1)).dropKey?
    some (s.push .streamEnd, true)
  | some x =>
    if c.column = 0 ∧ x = '%' then do
      let s ← (s.unrollTo (-1)).dropKey?
      let (t, c) ← scanDirective? s.cursor
      some ({ (s.push t) with cursor := c, keyAllowed := false }, false)
    else if c.documentMark '-' ∨ c.documentMark '.' then do
      let s ← (s.unrollTo (-1)).dropKey?
      let t := if x = '-' then Token.documentStart else Token.documentEnd
      some ({ (s.push t) with cursor := c.skipMany 3, keyAllowed := false }, false)
    else if x = '[' then (s.openFlow? .flowSequenceStart).map (·, false)
    else if x = '{' then (s.openFlow? .flowMappingStart).map (·, false)
    else if x = ']' then (s.closeFlow? .flowSequenceEnd).map (·, false)
    else if x = '}' then (s.closeFlow? .flowMappingEnd).map (·, false)
    else if x = ',' then do
      let s ← s.dropKey?
      some ({ (s.skip.push .flowEntry) with keyAllowed := true }, false)
    else if x = '-' ∧ c.gapAt 1 then
      if s.flow = 0 ∧ !s.keyAllowed then none
      else do
        let s ← (s.rollTo c.column .blockSequenceStart).dropKey?
        some ({ (s.skip.push .blockEntry) with keyAllowed := true }, false)
    else if x = '?' ∧ (inFlow ∨ c.gapAt 1) then
      if s.flow = 0 ∧ !s.keyAllowed then none
      else do
        let s ← (s.rollTo c.column .blockMappingStart).dropKey?
        some ({ (s.skip.push .key) with keyAllowed := s.flow = 0 }, false)
    else if x = ':' ∧ (inFlow ∨ c.gapAt 1) then s.colon?.map (·, false)
    else if x = '*' then (s.keyable? (scanName? .alias)).map (·, false)
    else if x = '&' then (s.keyable? (scanName? .anchor)).map (·, false)
    else if x = '!' then (s.keyable? (scanTag? inFlow)).map (·, false)
    else if (x = '|' ∨ x = '>') ∧ s.flow = 0 then do
      let s ← s.dropKey?
      let (t, c) ← scanBlock? limit (x = '|') s.indent c.skip
      some ({ (s.push t) with cursor := c, keyAllowed := true }, false)
    else if x = '\'' ∨ x = '"' then
      (s.keyable? fun c =>
        (quotedBody? (x = '"') (limit + 1) [] c.skip).map fun p =>
          (.scalar p.1 .quoted, p.2)).map (·, false)
    else if startsPlain inFlow c then do
      let s ← s.saveKey?
      let (text, folded, c) ←
        plainBody? inFlow (s.indent + 1) (limit + 1) false [] [] c
      some ({ (s.push (.scalar (String.ofList text.reverse) .plain)) with
        cursor := c, keyAllowed := folded }, false)
    else none

/-- Read tokens until the text ends. Every token takes a character at least, so the number
of steps that are left bounds the number of characters that are left. -/
def run? : Nat → Scanner → Option (Array Slot)
  | 0, _ => none
  | fuel + 1, s =>
    match s.fetch? fuel with
    | none => none
    | some (s, true) => some s.slots
    | some (s, false) => run? fuel s

end Scanner

/-- The tokens of a text, or nothing where the text has none. -/
def scan? (text : String) : Option (List Token) := do
  let cs := text.toList
  if cs.all isPrintable then
    let slots ← Scanner.run? (cs.length + 2)
      ⟨⟨cs, 0, 0, 0⟩, #[], -1, [], 0, [none], true⟩
    some (slots.toList.flatMap Slot.tokens)
  else none

end WorkflowGraph.Yaml
