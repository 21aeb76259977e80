/-!
# Reading a decimal as a binary64 number

A decimal is read as its digits, taken as one 64-bit number, times or divided by a power of ten.
Digits that no longer fit 64 bits are dropped; those before the point still count for the power.
The digits, the power and the result are each rounded once, so that long decimals may come out one
place beside the nearest number.
-/

namespace Highlight.Decimal

/-- The digits kept so far, and the power of ten they are to be multiplied by. -/
structure Scaled where
  digits : Nat
  exponent : Int
  deriving DecidableEq, Repr

namespace Scaled

/--
Appends decimal digits to a number as long as the result fits 64 bits. Returns the number and how
many digits were left over.
-/
def append : (digits : Nat) → List Nat → Nat × Nat
  | n, [] => (n, 0)
  | n, d :: rest =>
    if 10 * n + d < UInt64.size then append (10 * n + d) rest else (n, rest.length + 1)

/-- The decimal with the given digits before and after the point, times `10 ^ exponent`. -/
def ofDigits (whole fraction : List Nat) (exponent : Int) : Scaled :=
  let (n, dropped) := append 0 whole
  let (n, dropped') := append n fraction
  ⟨n, exponent + dropped - (fraction.length - dropped' : Nat)⟩

/-- `10 ^ k`, rounded. -/
def power (k : Nat) : Float := Float.ofScientific 1 false k

/-- The number nearest to the scaled digits up to rounding; none if it is too large. -/
def toFloat? (x : Scaled) : Option Float :=
  let n := (UInt64.ofNat x.digits).toFloat
  let k := x.exponent.natAbs
  if 0 ≤ x.exponent then
    if x.digits = 0 then some n
    else if k ≤ 308 then
      let r := n * power k
      if r.isInf then none else some r
    else none
  else if k ≤ 308 then some (n / power k)
  else if k ≤ 616 then some (n / power 308 / power (k - 308))
  else some 0

end Scaled

end Highlight.Decimal
