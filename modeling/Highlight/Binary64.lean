/-!
# Operations on binary64 numbers that round once

Core gives `+`, `*`, `/` and the comparisons of `Float` a meaning in the logic, but leaves
flooring, rounding to an integer and the fused multiply-add opaque or out. They are defined here
on the unpacked form of a number, a sign, a natural mantissa and a power of two, in exact integer
arithmetic with one rounding at the end.

* `mulAdd x y z` is `x * y + z` with a single rounding.
* `floor`, `ceil` and `nearest` are the integral neighbours of a number; all keep the sign of a
  zero result, as the number they came from had it.
* `fract` is the distance above the next integer below.
-/

namespace Highlight.Binary64

open Float.Model (UnpackedFloat Format)
open Float.Model.UnpackedFloat (Sign)

/-- The sign, mantissa and exponent of a number. -/
def unpack (x : Float) : UnpackedFloat := x.toModel.unpack

/-- The number with the given sign, mantissa and exponent, which must already be rounded. -/
def pack (x : UnpackedFloat) : Float := .ofModel (Float.Model.pack x)

/-- The product of two numbers before any rounding. -/
def exactProduct : UnpackedFloat → UnpackedFloat → UnpackedFloat
  | .finite s m e hm, .finite s' m' e' hm' =>
    .finite (s * s') (m * m') (e + e') (Nat.mul_pos hm hm')
  | x, y => .mul .binary64 x y

/-- The fused multiply-add: the exact product plus `z`, rounded once. -/
def mulAdd (x y z : Float) : Float :=
  match exactProduct (unpack x) (unpack y), unpack z with
  | .finite s m e _, .zero _ => pack (.round .binary64 s m e)
  | product, z => pack (.add .binary64 product z)

/--
The integral neighbour of `x` toward zero, or the next one away from zero if `away sign rest unit`
holds, where `rest / unit` is the fraction that was cut off.
-/
def integral (away : Sign → (rest unit : Nat) → Bool) (x : Float) : Float :=
  match unpack x with
  | .finite s m e _ =>
    if 0 ≤ e then x
    else
      let unit := Nat.pow 2 (-e).toNat
      let whole := m / unit + if away s (m % unit) unit then 1 else 0
      if whole = 0 then pack (.zero s) else pack (.round .binary64 s whole 0)
  | _ => x

/-- The greatest integral number not above `x`. -/
def floor (x : Float) : Float := integral (fun s rest _ => s == .negative && rest != 0) x

/-- The least integral number not below `x`. -/
def ceil (x : Float) : Float := integral (fun s rest _ => s == .positive && rest != 0) x

/-- The integral number nearest to `x`; a half goes away from zero. -/
def nearest (x : Float) : Float := integral (fun _ rest unit => unit ≤ 2 * rest) x

/-- What is left of `x` without its integral part toward zero; the sign of `x` is kept. -/
def remainder (x : Float) : Float :=
  match unpack x with
  | .finite s m e _ =>
    if 0 ≤ e then pack (.zero s)
    else
      let rest := m % Nat.pow 2 (-e).toNat
      if rest = 0 then pack (.zero s) else pack (.round .binary64 s rest e)
  | .infinity _ => pack .notANumber
  | _ => x

/--
The fractional part of `x`, counted upward from the integer below. A negative number so close to
zero that one minus it rounds to one has the fractional part one.
-/
def fract (x : Float) : Float :=
  let r := remainder x
  if r < 0 then r + 1 else r

/-- The integer part of `x` toward zero, kept within 64 bits; zero if `x` is not a number. -/
def toInteger (x : Float) : Int := x.toModel.toInt64.toInt

/-- The larger of two numbers; the other one if one is not a number. -/
def max (x y : Float) : Float := if x.isNaN then y else if x < y then y else x

/-- The smaller of two numbers; the other one if one is not a number. -/
def min (x y : Float) : Float := if x.isNaN then y else if y < x then y else x

end Highlight.Binary64
