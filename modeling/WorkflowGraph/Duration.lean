import WorkflowGraph.Text.Blank

/-!
# Durations

A duration is a number of nanoseconds below `Duration.limit`. `Duration.read?`
reads texts such as `1m 30s` and `1.5s`; `Duration.written` writes them with one
part per unit; `Duration.brief` writes one number with one unit, as messages do.
-/

set_option autoImplicit false

namespace WorkflowGraph

/-- A length of time in nanoseconds. -/
structure Duration where
  nanos : Nat
  deriving DecidableEq, Repr, Inhabited

namespace Duration

/-- The number of nanoseconds in a second. -/
def second : Nat := 1000000000

/-- The largest number that a count of seconds can reach. -/
def maxWord : Nat := 18446744073709551615

/-- The longest duration: a full word of seconds and a nanosecond less than one more. -/
def longest : Duration := ⟨maxWord * second + (second - 1)⟩

/-- A duration of whole milliseconds. -/
def ofMillis (n : Nat) : Duration := ⟨n * 1000000⟩

/-- A duration of whole seconds. -/
def ofSeconds (n : Nat) : Duration := ⟨n * second⟩

/-- Multiply by a number, staying at the longest duration where the product exceeds it. -/
def times (d : Duration) (n : Nat) : Duration := ⟨min (d.nanos * n) longest.nanos⟩

/-- The shorter of two durations. -/
def least (a b : Duration) : Duration := ⟨min a.nanos b.nanos⟩

/-- The units that a duration is written in. -/
inductive TimeUnit where
  | nanosecond
  | microsecond
  | millisecond
  | second
  | minute
  | hour
  | day
  | week
  | month
  | year
  deriving DecidableEq, Repr

/-- The length of a unit in nanoseconds. A month has 30.44 days and a year 365.25. -/
def TimeUnit.nanos : TimeUnit → Nat
  | .nanosecond => 1
  | .microsecond => 1000
  | .millisecond => 1000000
  | .second => Duration.second
  | .minute => 60 * Duration.second
  | .hour => 3600 * Duration.second
  | .day => 86400 * Duration.second
  | .week => 604800 * Duration.second
  | .month => 2630016 * Duration.second
  | .year => 31557600 * Duration.second

/-- The unit with a name. -/
def TimeUnit.ofName? (name : String) : Option TimeUnit :=
  if ["nanos", "nsec", "ns"].contains name then some .nanosecond
  else if ["usec", "us", "µs"].contains name then some .microsecond
  else if ["millis", "msec", "ms"].contains name then some .millisecond
  else if ["seconds", "second", "secs", "sec", "s"].contains name then some .second
  else if ["minutes", "minute", "min", "mins", "m"].contains name then some .minute
  else if ["hours", "hour", "hr", "hrs", "h"].contains name then some .hour
  else if ["days", "day", "d"].contains name then some .day
  else if ["weeks", "week", "wk", "wks", "w"].contains name then some .week
  else if ["months", "month", "M"].contains name then some .month
  else if ["years", "year", "yr", "yrs", "y"].contains name then some .year
  else none

/-- Whether a unit is at least an hour long; its fractions are counted in whole seconds. -/
def TimeUnit.isLong : TimeUnit → Bool
  | .hour | .day | .week | .month | .year => true
  | _ => false

/-- A number that fits in a word. -/
def word? (n : Nat) : Option Nat := if n ≤ maxWord then some n else none

/-- Digits behind a decimal point: `numerator / denominator`. -/
structure Fraction where
  numerator : Nat
  denominator : Nat

/-- Add seconds and nanoseconds to a duration. -/
def plus? (d : Duration) (seconds nanos : Nat) : Option Duration := do
  let nanos ← word? (d.nanos % second + nanos)
  let seconds ← word? (d.nanos / second + seconds + nanos / second)
  some ⟨seconds * second + nanos % second⟩

/-- The number of parts that a fraction makes of a unit with `parts` parts; it has to be
a whole one. -/
def Fraction.of? (f : Fraction) (parts : Nat) : Option Nat := do
  let n ← word? (f.numerator * parts)
  if n % f.denominator = 0 then some (n / f.denominator) else none

/-- Add `n` units, and the fraction of a unit, to a duration. -/
def plusUnits? (d : Duration) (n : Nat) (fraction : Option Fraction) (unitName : String) :
    Option Duration := do
  let u ← TimeUnit.ofName? unitName
  let whole ←
    if u.nanos < second then (word? (n * u.nanos)).bind fun ns => plus? d 0 ns
    else (word? (n * (u.nanos / second))).bind fun s => plus? d s 0
  match fraction with
  | none => some whole
  | some f =>
    if u = .nanosecond then none
    else if u.isLong then (f.of? (u.nanos / second)).bind fun s => plus? whole s 0
    else (f.of? u.nanos).bind fun ns => plus? whole 0 ns

/-- Whether a character may stand in the name of a unit. -/
def isUnitChar (c : Char) : Bool :=
  ('a' ≤ c && c ≤ 'z') || ('A' ≤ c && c ≤ 'Z') || c == 'µ'

/-- Whether a character is a decimal digit. -/
def isDigit (c : Char) : Bool := '0' ≤ c && c ≤ '9'

/-- Read the digits of a number, in which blanks may stand, on top of the digits
read before; gives the number, the number of digits, and what follows. -/
def readDigits? : Nat → Nat → List Char → Option (Nat × Nat × List Char)
  | n, count, [] => some (n, count, [])
  | n, count, c :: rest =>
    if isDigit c then do
      let n ← word? (n * 10 + (c.toNat - 48))
      readDigits? n (count + 1) rest
    else if Text.isBlank c then readDigits? n count rest
    else some (n, count, c :: rest)

/-- Read a sequence of numbers with units; at most `fuel` of them. -/
def readParts? : Nat → Duration → List Char → Option Duration
  | 0, _, _ => none
  | fuel + 1, total, cs =>
    match Text.trimStart cs with
    | [] => some total
    | c :: rest =>
      if !isDigit c then none
      else do
        let (n, _, rest) ← readDigits? 0 0 (c :: rest)
        let (fraction, rest) ←
          match rest with
          | '.' :: more => do
            let (numerator, count, rest) ← readDigits? 0 0 more
            let denominator ← word? (Nat.pow 10 count)
            if count = 0 then none else some (some ⟨numerator, denominator⟩, rest)
          | _ => some (none, rest)
        let name := rest.takeWhile isUnitChar
        let after := rest.dropWhile isUnitChar
        let total ← plusUnits? total n fraction (String.ofList name)
        match after with
        | [] => some total
        | d :: _ =>
          if isDigit d || Text.isBlank d then readParts? fuel total after else none

/-- Read a duration such as `1h 30m` or `250ms`. A plain zero needs no unit. -/
def read? (text : String) : Option Duration :=
  if text = "0" then some ⟨0⟩
  else
    let cs := text.toList
    if (Text.trimStart cs).isEmpty then none else readParts? (cs.length + 1) ⟨0⟩ cs

/-- One part of a written duration; parts that are zero are left out. -/
def part (n : Nat) (unitName : String) : List String :=
  if n = 0 then [] else [toString n ++ unitName]

/-- A part whose unit has a plural. -/
def pluralPart (n : Nat) (unitName : String) : List String :=
  if n = 0 then [] else [toString n ++ unitName ++ (if 1 < n then "s" else "")]

/-- The text of a duration with falling units, such as `1m 30s`. -/
def written (d : Duration) : String :=
  let seconds := d.nanos / second
  let nanos := d.nanos % second
  if d.nanos = 0 then "0s"
  else
    let ofYear := seconds % 31557600
    let ofMonth := ofYear % 2630016
    let ofDay := ofMonth % 86400
    String.intercalate " " <|
      pluralPart (seconds / 31557600) "year" ++ pluralPart (ofYear / 2630016) "month" ++
      pluralPart (ofMonth / 86400) "day" ++ part (ofDay / 3600) "h" ++
      part (ofDay % 3600 / 60) "m" ++ part (ofDay % 60) "s" ++
      part (nanos / 1000000) "ms" ++ part (nanos / 1000 % 1000) "us" ++ part (nanos % 1000) "ns"

/-- Digits behind a point, `width` places wide, without zeros at the end. -/
def decimals (n width : Nat) : String :=
  let digits := (toString n).toList
  let padded := List.replicate (width - digits.length) '0' ++ digits
  let kept := (padded.reverse.dropWhile (· == '0')).reverse
  if kept.isEmpty then "" else "." ++ String.ofList kept

/-- The text of a duration as one number with the largest unit that fits. -/
def brief (d : Duration) : String :=
  let n := d.nanos
  if second ≤ n then toString (n / second) ++ decimals (n % second) 9 ++ "s"
  else if 1000000 ≤ n then toString (n / 1000000) ++ decimals (n % 1000000) 6 ++ "ms"
  else if 1000 ≤ n then toString (n / 1000) ++ decimals (n % 1000) 3 ++ "µs"
  else toString n ++ "ns"

end Duration

end WorkflowGraph
