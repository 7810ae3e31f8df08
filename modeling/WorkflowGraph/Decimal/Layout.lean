import WorkflowGraph.Decimal.Shortest

/-!
# Written floating-point numbers

A floating-point number is written with its shortest digits and always with a
point or an exponent, so it is never mistaken for an integer. The layout is a
record, `NumberLayout`; the one used for every text of this library is
`NumberLayout.standard`.
-/

set_option autoImplicit false

namespace WorkflowGraph

/-- Where positional notation ends, and whether a positive exponent has a sign.
With `k` the place of the decimal point relative to the digits, numbers with
`lowest < k` and `k ≤ highest` are written without an exponent. -/
structure NumberLayout where
  lowest : Int
  highest : Int
  plus : Bool

/-- Positional notation from `0.00001` up to sixteen digits before the point;
exponents such as `e+20` and `e-7`. -/
def NumberLayout.standard : NumberLayout := ⟨-5, 16, true⟩

/-- The layout of numbers that serve as names: exponents such as `e20` and `e-7`. -/
def NumberLayout.name : NumberLayout := ⟨-5, 16, false⟩

namespace Decimal

/-- A text of zeros. -/
def zeros (n : Nat) : String := String.ofList (List.replicate n '0')

/-- Write a decimal other than zero. -/
def write (d : Decimal) (layout : NumberLayout) : String :=
  let digits := (toString d.digits).toList
  let count := digits.length
  let point := d.scale + count
  if layout.lowest < point ∧ point ≤ layout.highest then
    if point ≤ 0 then "0." ++ zeros point.natAbs ++ String.ofList digits
    else
      let whole := point.toNat
      if count ≤ whole then String.ofList digits ++ zeros (whole - count) ++ ".0"
      else String.ofList (digits.take whole) ++ "." ++ String.ofList (digits.drop whole)
  else
    let first := String.ofList (digits.take 1)
    let rest := digits.drop 1
    let mantissa := if rest.isEmpty then first else first ++ "." ++ String.ofList rest
    let sign := if layout.plus ∧ 0 < point - 1 then "+" else ""
    mantissa ++ "e" ++ sign ++ toString (point - 1)

end Decimal

/-- The text of a finite floating-point number in a layout. -/
def NumberLayout.write (layout : NumberLayout) (x : Float) : String :=
  let bits := x.toBits
  let sign := if Nat.pow 2 63 ≤ bits.toNat then "-" else ""
  let d := Decimal.shortest bits
  if d.digits = 0 then sign ++ "0.0" else sign ++ d.write layout

/-- The text of a finite floating-point number. -/
def writeFloat (x : Float) : String := NumberLayout.standard.write x

end WorkflowGraph
