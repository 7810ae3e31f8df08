import WorkflowGraph.Text.Blank

/-!
# Tokens of conditions

`Token.scan` splits the text of a condition into tokens, each with the byte
offset at which it starts. Text that is no token is refused with the offset and
the reason, so nothing but field paths, literals, comparisons and the three
connectives can occur in a condition.
-/

set_option autoImplicit false

namespace WorkflowGraph

/-- The comparisons of a condition. -/
inductive Comparison where
  | lt
  | le
  | gt
  | ge
  | eq
  | ne
  deriving DecidableEq, Repr

/-- The written form of a comparison. -/
def Comparison.symbol : Comparison → String
  | .lt => "<"
  | .le => "<="
  | .gt => ">"
  | .ge => ">="
  | .eq => "=="
  | .ne => "!="

/-- The reasons for which a text is no condition. -/
inductive ConditionFault where
  | symbolicConnective
  | indexing
  | arithmetic
  | assignment
  | exclamation
  | unexpectedCharacter (c : Char)
  | unterminatedText
  | unsupportedEscape
  | malformedNumber
  | integerOutOfRange
  | missingSegment
  | empty
  | tooManyTokens
  | nestedTooDeeply
  | functionCall
  | chainedComparison
  | unexpectedToken
  | unexpectedEnd
  | missingParenthesis
  | missingOperand
  deriving DecidableEq, Repr

/-- The longest condition, in tokens. -/
def Token.maxCount : Nat := 2048

/-- The wording of a fault. -/
def ConditionFault.message : ConditionFault → String
  | .symbolicConnective => "use `and` / `or` instead of symbolic connectives"
  | .indexing => "indexing is not supported"
  | .arithmetic => "arithmetic is not supported"
  | .assignment => "assignment is not supported"
  | .exclamation => "use `not` instead of `!`"
  | .unexpectedCharacter c => "unexpected character `" ++ String.singleton c ++ "`"
  | .unterminatedText => "unterminated string literal"
  | .unsupportedEscape => "unsupported escape sequence"
  | .malformedNumber => "malformed number"
  | .integerOutOfRange => "integer out of range"
  | .missingSegment => "expected a field name after `.`"
  | .empty => "empty condition"
  | .tooManyTokens => "condition longer than " ++ toString Token.maxCount ++ " tokens"
  | .nestedTooDeeply => "expression nested too deeply"
  | .functionCall => "function calls are not supported"
  | .chainedComparison => "comparisons cannot be chained"
  | .unexpectedToken => "unexpected token"
  | .unexpectedEnd => "unexpected end of condition"
  | .missingParenthesis => "expected `)`"
  | .missingOperand => "expected a value or field path"

/-- A fault and the byte offset it is reported at. -/
structure FaultAt where
  position : Nat
  fault : ConditionFault
  deriving DecidableEq, Repr

/-- What a token is. -/
inductive Lexeme where
  | path (segments : List String)
  | int (n : Int)
  | float (x : Float)
  | text (s : String)
  | bool (b : Bool)
  | null
  | comparison (op : Comparison)
  | and
  | or
  | not
  | open
  | close

/-- A lexeme and the byte offset at which it starts. -/
structure Token where
  lexeme : Lexeme
  position : Nat

namespace Token

/-- The number of bytes that characters take up. -/
def byteLength : List Char → Nat
  | [] => 0
  | c :: rest => c.utf8Size + byteLength rest

/-- Whether a character is a decimal digit. -/
def isDigit (c : Char) : Bool := '0' ≤ c && c ≤ '9'

/-- Whether a character is a letter of the ASCII alphabet. -/
def isLetter (c : Char) : Bool := ('a' ≤ c && c ≤ 'z') || ('A' ≤ c && c ≤ 'Z')

/-- Whether a word may start with a character. -/
def startsWord (c : Char) : Bool := isLetter c || c == '_'

/-- Whether a character may stand in a word. -/
def inWord (c : Char) : Bool := startsWord c || isDigit c

/-- Whether a character separates tokens. -/
def isSeparator (c : Char) : Bool := c == ' ' || c == '\t' || c == '\n' || c == '\r'

/-- The word at the start of a text and what follows it. -/
def takeWord (cs : List Char) : List Char × List Char :=
  (cs.takeWhile inWord, cs.dropWhile inWord)

/-- The word that stands for a connective or a literal, if it does. -/
def keyword? (word : String) : Option Lexeme :=
  match word with
  | "and" => some .and
  | "or" => some .or
  | "not" => some .not
  | "true" => some (.bool true)
  | "True" => some (.bool true)
  | "false" => some (.bool false)
  | "False" => some (.bool false)
  | "null" => some .null
  | "None" => some .null
  | _ => none

/-- What reading one lexeme gives: the lexeme, and the text after it. A fault
carries the number of bytes between the start of the lexeme and the fault. -/
abbrev Read : Type := Except FaultAt (Lexeme × List Char)

/-- Read the segments of a path after its first one; `offset` counts the bytes
from the start of the path. Every round takes a dot, so `fuel` is the length of
the text. -/
def readSegments : Nat → Nat → List String → List Char → Except FaultAt (List String × List Char)
  | 0, _, done, cs => .ok (done.reverse, cs)
  | fuel + 1, offset, done, cs =>
    match cs with
    | '.' :: rest =>
      let (word, after) := takeWord rest
      if word.isEmpty then .error ⟨offset, .missingSegment⟩
      else readSegments fuel (offset + 1 + word.length) (String.ofList word :: done) after
    | _ => .ok (done.reverse, cs)

/-- Read a keyword or a path. -/
def readWord (cs : List Char) : Read :=
  let (word, rest) := takeWord cs
  match keyword? (String.ofList word) with
  | some lexeme => .ok (lexeme, rest)
  | none => do
    let (segments, rest) ← readSegments rest.length word.length [String.ofList word] rest
    .ok (.path segments, rest)

/-- Read a text literal after its opening quote; `offset` counts the bytes from
the quote, and the characters read so far stand in reverse. -/
def readTextBody (quote : Char) : Nat → List Char → List Char → Read
  | _, _, [] => .error ⟨0, .unterminatedText⟩
  | offset, done, c :: rest =>
    if c = quote then .ok (.text (String.ofList done.reverse), rest)
    else if c = '\\' then
      match rest with
      | '\\' :: more => readTextBody quote (offset + 2) ('\\' :: done) more
      | '\'' :: more => readTextBody quote (offset + 2) ('\'' :: done) more
      | '"' :: more => readTextBody quote (offset + 2) ('"' :: done) more
      | 'n' :: more => readTextBody quote (offset + 2) ('\n' :: done) more
      | _ => .error ⟨offset, .unsupportedEscape⟩
    else readTextBody quote (offset + c.utf8Size) (c :: done) rest

/-- Split off the characters of a number: digits, underscores, and one point that
a digit follows. Tells whether there is a point. -/
def takeNumber : Bool → List Char → List Char × Bool × List Char
  | point, [] => ([], point, [])
  | point, c :: rest =>
    if isDigit c || c == '_' then
      let (taken, p, after) := takeNumber point rest
      (c :: taken, p, after)
    else if c == '.' && !point && (rest.head?.any isDigit) then
      let (taken, p, after) := takeNumber true rest
      (c :: taken, p, after)
    else ([], point, c :: rest)

/-- The number written by digits. -/
def digitsValue (cs : List Char) : Nat := cs.foldl (fun n c => n * 10 + (c.toNat - 48)) 0

/-- The number nearest to digits with a point among them. -/
def decimalValue (cs : List Char) : Float :=
  let whole := cs.takeWhile isDigit
  let fraction := (cs.dropWhile isDigit).drop 1
  Float.ofScientific (digitsValue (whole ++ fraction)) true fraction.length

/-- Read a number, which may have a minus sign. -/
def readNumber (cs : List Char) : Read :=
  let (negative, body) := match cs with
    | '-' :: rest => (true, rest)
    | _ => (false, cs)
  let (taken, point, rest) := takeNumber false body
  let width := taken.length + (if negative then 1 else 0)
  if rest.head?.any (fun c => isLetter c || c == '.') then .error ⟨width, .malformedNumber⟩
  else
    let digits := taken.filter (· != '_')
    if point then
      let x := decimalValue digits
      .ok (.float (if negative then -x else x), rest)
    else
      let n : Int := if negative then -(digitsValue digits) else digitsValue digits
      if -9223372036854775808 ≤ n ∧ n ≤ 9223372036854775807 then .ok (.int n, rest)
      else .error ⟨0, .integerOutOfRange⟩

/-- Read the lexeme that starts with a character. -/
def readLexeme (c : Char) (rest : List Char) : Read :=
  match c, rest with
  | '(', _ => .ok (.open, rest)
  | ')', _ => .ok (.close, rest)
  | '<', '=' :: more => .ok (.comparison .le, more)
  | '<', _ => .ok (.comparison .lt, rest)
  | '>', '=' :: more => .ok (.comparison .ge, more)
  | '>', _ => .ok (.comparison .gt, rest)
  | '=', '=' :: more => .ok (.comparison .eq, more)
  | '=', _ => .error ⟨0, .assignment⟩
  | '!', '=' :: more => .ok (.comparison .ne, more)
  | '!', _ => .error ⟨0, .exclamation⟩
  | '\'', _ => readTextBody '\'' 1 [] rest
  | '"', _ => readTextBody '"' 1 [] rest
  | _, _ =>
    if isDigit c || (c == '-' && rest.head?.any isDigit) then readNumber (c :: rest)
    else if startsWord c then readWord (c :: rest)
    else if c == '&' || c == '|' then .error ⟨0, .symbolicConnective⟩
    else if c == '[' || c == ']' then .error ⟨0, .indexing⟩
    else if c == '+' || c == '-' || c == '*' || c == '/' || c == '%' then
      .error ⟨0, .arithmetic⟩
    else .error ⟨0, .unexpectedCharacter c⟩

/-- Read tokens from a byte offset on. A round takes at least one character, so
the length of the text is enough fuel. -/
def scanFrom : Nat → Nat → List Char → Except FaultAt (List Token)
  | _, _, [] => .ok []
  | 0, _, _ :: _ => .ok []
  | fuel + 1, position, c :: rest =>
    if isSeparator c then scanFrom fuel (position + 1) rest
    else
      match readLexeme c rest with
      | .error e => .error ⟨position + e.position, e.fault⟩
      | .ok (lexeme, after) =>
        let width := byteLength (c :: rest) - byteLength after
        match scanFrom fuel (position + width) after with
        | .error e => .error e
        | .ok tokens => .ok (⟨lexeme, position⟩ :: tokens)

/-- Split a text into tokens. -/
def scan (source : String) : Except FaultAt (List Token) :=
  scanFrom source.toList.length 0 source.toList

end Token

end WorkflowGraph
