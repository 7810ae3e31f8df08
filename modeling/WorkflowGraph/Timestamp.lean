import WorkflowGraph.Text.Blank

/-!
# Time stamps

Serialized records carry the moment at which they were made. Nothing in this
library depends on that moment, so records in memory have none: written records
carry the start of the epoch, and what is read has to be a moment that exists.
-/

set_option autoImplicit false

namespace WorkflowGraph.Timestamp

/-- The stamp of every written record. -/
def written : String := "1970-01-01T00:00:00Z"

/-- A day of the calendar. -/
structure Day where
  year : Int
  month : Nat
  day : Nat
  deriving DecidableEq

/-- Whether a year is a leap year. -/
def isLeap (year : Int) : Bool :=
  (year % 4 == 0 && year % 100 != 0) || year % 400 == 0

/-- The number of days of a month. -/
def daysIn (year : Int) (month : Nat) : Nat :=
  if month = 2 then (if isLeap year then 29 else 28)
  else if month = 4 ∨ month = 6 ∨ month = 9 ∨ month = 11 then 30
  else 31

/-- The first day that there is. -/
def firstDay : Day := ⟨-262143, 1, 1⟩

/-- The last day that there is. -/
def lastDay : Day := ⟨262142, 12, 31⟩

/-- Whether there is such a day. -/
def Day.isValid (d : Day) : Bool :=
  decide (firstDay.year ≤ d.year ∧ d.year ≤ lastDay.year ∧ 1 ≤ d.month ∧ d.month ≤ 12 ∧
    1 ≤ d.day ∧ d.day ≤ daysIn d.year d.month)

/-- A time of the day. Any minute may have a leap second. -/
structure Clock where
  hour : Nat
  minute : Nat
  second : Nat

/-- Whether there is such a time. -/
def Clock.isValid (t : Clock) : Bool := decide (t.hour < 24 ∧ t.minute < 60 ∧ t.second ≤ 60)

/-- The seconds of the day that have passed; a leap second does not count. -/
def Clock.seconds (t : Clock) : Nat := t.hour * 3600 + t.minute * 60 + min t.second 59

/-- The number of seconds in a day. -/
def secondsOfDay : Int := 86400

/-- Whether a day, a time and a distance in seconds from universal time name a moment:
each of them exists, and universal time has not left the calendar. -/
def isMoment (d : Day) (t : Clock) (offset : Int) : Bool :=
  let universal : Int := t.seconds - offset
  d.isValid && t.isValid && decide (-secondsOfDay < offset ∧ offset < secondsOfDay) &&
    !decide (d = firstDay ∧ universal < 0) && !decide (d = lastDay ∧ secondsOfDay ≤ universal)

/-- Whether a character is a decimal digit. -/
def isDigit (c : Char) : Bool := '0' ≤ c && c ≤ '9'

/-- Read a number of at least one and at most `width` digits. -/
def digits? (width : Nat) (cs : List Char) : Option (Nat × List Char) :=
  let digits := (cs.take width).takeWhile isDigit
  if digits.isEmpty then none
  else some (digits.foldl (fun n c => n * 10 + (c.toNat - 48)) 0, cs.drop digits.length)

/-- Read a number of one or two digits behind any blanks. -/
def number? (cs : List Char) : Option (Nat × List Char) := digits? 2 (Text.trimStart cs)

/-- Read a given character behind any blanks. -/
def expect? (c : Char) (cs : List Char) : Option (List Char) :=
  match Text.trimStart cs with
  | d :: rest => if c = d then some rest else none
  | [] => none

/-- Read the year behind any blanks. It has up to four digits, or a sign and any number
of digits. -/
def year? (cs : List Char) : Option (Int × List Char) :=
  match Text.trimStart cs with
  | '+' :: rest => (digits? rest.length rest).map fun p => ((p.1 : Int), p.2)
  | '-' :: rest => (digits? rest.length rest).map fun p => (-(p.1 : Int), p.2)
  | cs => (digits? 4 cs).map fun p => ((p.1 : Int), p.2)

/-- Read the day. -/
def day? (cs : List Char) : Option (Day × List Char) := do
  let (year, cs) ← year? cs
  let cs ← expect? '-' cs
  let (month, cs) ← number? cs
  let cs ← expect? '-' cs
  let (day, cs) ← number? cs
  some (⟨year, month, day⟩, cs)

/-- Read digits behind a point, if there is one. -/
def fraction? (cs : List Char) : Option (List Char) :=
  match cs with
  | '.' :: rest =>
    if rest.head?.any isDigit then some (rest.dropWhile isDigit) else none
  | _ => some cs

/-- Read the time of the day. -/
def clock? (cs : List Char) : Option (Clock × List Char) := do
  let (hour, cs) ← number? cs
  let cs ← expect? ':' cs
  let (minute, cs) ← number? cs
  let cs ← expect? ':' cs
  let (second, cs) ← number? cs
  let cs ← fraction? cs
  some (⟨hour, minute, second⟩, cs)

/-- Read two digits behind a sign. -/
def twoDigits? (cs : List Char) : Option (Nat × List Char) :=
  match cs with
  | a :: b :: rest =>
    if isDigit a && isDigit b then some ((a.toNat - 48) * 10 + (b.toNat - 48), rest) else none
  | _ => none

/-- Read hours and minutes, between which blanks and colons may stand, in seconds. -/
def hoursAndMinutes? (cs : List Char) : Option (Int × List Char) := do
  let (hours, cs) ← twoDigits? cs
  let (minutes, cs) ← twoDigits? (cs.dropWhile fun c => c == ':' || Text.isBlank c)
  if minutes < 60 then some ((hours * 3600 + minutes * 60 : Nat), cs) else none

/-- Read the distance from universal time in seconds. -/
def zone? (cs : List Char) : Option (Int × List Char) :=
  match cs with
  | 'Z' :: rest | 'z' :: rest => some (0, rest)
  | '+' :: rest => hoursAndMinutes? rest
  | '-' :: rest | '\u2212' :: rest => (hoursAndMinutes? rest).map fun p => (-p.1, p.2)
  | u :: t :: c :: rest =>
    if (u == 'U' || u == 'u') && (t == 'T' || t == 't') && (c == 'C' || c == 'c') then
      some (0, rest)
    else none
  | _ => none

/-- Whether a text names a moment: a day, a time and the distance from universal time. -/
def isValid (text : String) : Bool :=
  match day? text.toList with
  | some (d, mark :: cs) =>
    if mark == 'T' || mark == 't' || mark == ' ' then
      match clock? cs with
      | some (t, cs) =>
        match zone? (Text.trimStart cs) with
        | some (offset, cs) => (Text.trimStart cs).isEmpty && isMoment d t offset
        | none => false
      | none => false
    else false
  | _ => false

end WorkflowGraph.Timestamp
