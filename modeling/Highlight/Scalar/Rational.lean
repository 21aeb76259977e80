import Highlight.Scalar

/-!
# Colour arithmetic without rounding

The rational numbers as `Scalar`: every operation is exact, so that a statement about colours over
`Rat` is about the formulas and not about how binary64 rounds them.
-/

namespace Highlight

/-- The integer nearest to `x`; a half goes away from zero. -/
def Rat.nearest (x : Rat) : Int := if 0 ≤ x then (x + 1 / 2).floor else -((-x + 1 / 2).floor)

/-- The integer part of `x` toward zero. -/
def Rat.truncate (x : Rat) : Int := if 0 ≤ x then x.floor else x.ceil

/-- The integer of `low` to `high` that is nearest to `n`. -/
def clampInt (low high n : Int) : Int := if n < low then low else if high < n then high else n

instance Rat.instScalar : Scalar Rat where
  decidableLT := inferInstance
  decidableLE := inferInstance
  mulAdd x y z := x * y + z
  max x y := if x < y then y else x
  min x y := if y < x then y else x
  abs x := if x < 0 then -x else x
  floor x := x.floor
  ceil x := x.ceil
  nearest x := Rat.nearest x
  fract x := x - x.floor
  toInteger x := clampInt Int64.minValue.toInt Int64.maxValue.toInt (Rat.truncate x)
  toByte x := UInt8.ofNat (clampInt 0 255 (Rat.truncate x)).toNat
  ofByte b := (b.toNat : Rat)
  epsilon := 1 / 4503599627370496

end Highlight
