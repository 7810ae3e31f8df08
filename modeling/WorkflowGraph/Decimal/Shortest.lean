/-!
# The fewest digits that read back

A finite floating-point number other than zero is `m * 2 ^ q` for a natural
number `m` below `2 ^ 53`. The real numbers that are rounded to it form an
interval, whose ends belong to it exactly when `m` is even. `Decimal.shortest`
gives the decimal with the fewest digits inside that interval; of several the
one nearest to the number, and at an exact tie the one whose last digit is
even. All arithmetic is exact, on natural numbers.
-/

set_option autoImplicit false

namespace WorkflowGraph

/-- The decimal `digits * 10 ^ scale`. -/
structure Decimal where
  digits : Nat
  scale : Int
  deriving DecidableEq, Repr, Inhabited

namespace Decimal

/-- A positive number `mantissa * 2 ^ exponent`, taken apart from its bits. -/
structure Binary where
  mantissa : Nat
  exponent : Int
  deriving DecidableEq, Repr

/-- The number of bits of the stored fraction. -/
def fractionBits : Nat := 52

/-- Take a finite float apart, leaving out its sign. -/
def Binary.ofBits (bits : UInt64) : Binary :=
  let raw := bits.toNat
  let fraction := raw % Nat.pow 2 fractionBits
  let biased := raw / Nat.pow 2 fractionBits % 2048
  if biased = 0 then ⟨fraction, -1074⟩
  else ⟨fraction + Nat.pow 2 fractionBits, (biased : Int) - 1075⟩

/-- A fraction of two natural numbers. -/
structure Ratio where
  num : Nat
  den : Nat

/-- The number `n * 2 ^ e` as a fraction. -/
def Ratio.binary (n : Nat) (e : Int) : Ratio :=
  if e < 0 then ⟨n, Nat.pow 2 e.natAbs⟩ else ⟨n * Nat.pow 2 e.toNat, 1⟩

/-- Multiply a fraction by a power of ten. -/
def Ratio.scale (r : Ratio) (e : Int) : Ratio :=
  if e < 0 then ⟨r.num, r.den * Nat.pow 10 e.natAbs⟩ else ⟨r.num * Nat.pow 10 e.toNat, r.den⟩

/-- Whether the fraction is less than a natural number. -/
def Ratio.below (r : Ratio) (n : Nat) : Bool := r.num < n * r.den

/-- The reals that are rounded to a number, as two ends and whether they belong. -/
structure Interval where
  low : Ratio
  high : Ratio
  closed : Bool

/-- Half of the way to each neighbour belongs to a number. The neighbour below a
power of two is only half as far away. -/
def Interval.around (b : Binary) : Interval :=
  let low :=
    if b.mantissa = Nat.pow 2 fractionBits ∧ -1074 < b.exponent then
      Ratio.binary (4 * b.mantissa - 1) (b.exponent - 2)
    else Ratio.binary (2 * b.mantissa - 1) (b.exponent - 1)
  ⟨low, Ratio.binary (2 * b.mantissa + 1) (b.exponent - 1), b.mantissa % 2 = 0⟩

/-- Whether `n * 10 ^ scale` lies in the interval. -/
def Interval.holds (i : Interval) (n : Nat) (scale : Int) : Bool :=
  let low := i.low.scale (-scale)
  let high := i.high.scale (-scale)
  if i.closed then low.num ≤ n * low.den && n * high.den ≤ high.num
  else low.num < n * low.den && n * high.den < high.num

/-- The number of digits before the decimal point of a number that is at least
one, and otherwise one less than the number of zeros needed to reach one, negated. -/
def magnitude (r : Ratio) : Int :=
  if r.den ≤ r.num then ((toString (r.num / r.den)).length : Int)
  else search 400 0
where
  /-- Count the powers of ten by which the number stays below one. -/
  search : Nat → Nat → Int
    | 0, zeros => -(zeros : Int)
    | fuel + 1, zeros =>
      if r.den ≤ r.num * Nat.pow 10 (zeros + 1) then -(zeros : Int) else search fuel (zeros + 1)

/-- The candidate with `scale` as the place of its last digit, if one of the two
neighbours of the number on that grid lies in the interval. -/
def onGrid? (value : Ratio) (interval : Interval) (scale : Int) : Option Decimal :=
  let scaled := value.scale (-scale)
  let floor := scaled.num / scaled.den
  let rest := scaled.num % scaled.den
  let lower := interval.holds floor scale
  let upper := interval.holds (floor + 1) scale
  match lower, upper with
  | false, false => none
  | true, false => some ⟨floor, scale⟩
  | false, true => some ⟨floor + 1, scale⟩
  | true, true =>
    if 2 * rest < scaled.den then some ⟨floor, scale⟩
    else if scaled.den < 2 * rest then some ⟨floor + 1, scale⟩
    else if floor % 2 = 0 then some ⟨floor, scale⟩
    else some ⟨floor + 1, scale⟩

/-- Try one digit, then two, and so on. -/
def firstGrid (value : Ratio) (interval : Interval) (top : Int) : Nat → Nat → Decimal
  | 0, _ => ⟨0, 0⟩
  | fuel + 1, count =>
    match onGrid? value interval (top - count) with
    | some d => if d.digits = 0 then firstGrid value interval top fuel (count + 1) else d
    | none => firstGrid value interval top fuel (count + 1)

/-- Remove zeros at the end of the digits. -/
def trim (d : Decimal) : Decimal := go 20 d
where
  /-- One zero at a time. -/
  go : Nat → Decimal → Decimal
    | 0, d => d
    | fuel + 1, d =>
      if d.digits ≠ 0 ∧ d.digits % 10 = 0 then go fuel ⟨d.digits / 10, d.scale + 1⟩ else d

/-- The decimal with the fewest digits that is rounded to the number with these
bits; the sign is left out. Seventeen digits always suffice. -/
def shortest (bits : UInt64) : Decimal :=
  let b := Binary.ofBits bits
  if b.mantissa = 0 then ⟨0, 0⟩
  else
    let value := Ratio.binary b.mantissa b.exponent
    trim (firstGrid value (Interval.around b) (magnitude value) 18 1)

end Decimal

end WorkflowGraph
