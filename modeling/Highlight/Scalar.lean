import Highlight.Binary64

/-!
# The numbers that colours are computed with

Colour derivation is written once, over any type with the operations of `Scalar`. It runs on
binary64 numbers; on the rationals (`Highlight.Scalar.Rational`) the same definitions say what is
computed without rounding.
-/

namespace Highlight

/-- The arithmetic that colour derivation uses. -/
class Scalar (α : Type) extends Add α, Sub α, Mul α, Div α, Neg α, LT α, LE α, OfScientific α where
  /-- Comparison can be decided. -/
  decidableLT : DecidableLT α
  /-- Comparison can be decided. -/
  decidableLE : DecidableLE α
  /-- `mulAdd x y z` is `x * y + z`, rounded at most once. -/
  mulAdd : α → α → α → α
  /-- The larger of two numbers. -/
  max : α → α → α
  /-- The smaller of two numbers. -/
  min : α → α → α
  /-- The magnitude of a number. -/
  abs : α → α
  /-- The greatest integral number not above a number. -/
  floor : α → α
  /-- The least integral number not below a number. -/
  ceil : α → α
  /-- The nearest integral number; a half goes away from zero. -/
  nearest : α → α
  /-- The part of a number above the next integer below. -/
  fract : α → α
  /-- The integer part of a number toward zero, kept within 64 signed bits. -/
  toInteger : α → Int
  /-- The integer part of a number, kept within a byte. -/
  toByte : α → UInt8
  /-- The number a byte stands for. -/
  ofByte : UInt8 → α
  /-- The distance from one to the next binary64 number. -/
  epsilon : α

instance Scalar.instDecidableLT {α : Type} [Scalar α] : DecidableLT α := Scalar.decidableLT

instance Scalar.instDecidableLE {α : Type} [Scalar α] : DecidableLE α := Scalar.decidableLE

instance Scalar.instFloat : Scalar Float where
  decidableLT := inferInstance
  decidableLE := inferInstance
  mulAdd := Binary64.mulAdd
  max := Binary64.max
  min := Binary64.min
  abs := Float.abs
  floor := Binary64.floor
  ceil := Binary64.ceil
  nearest := Binary64.nearest
  fract := Binary64.fract
  toInteger := Binary64.toInteger
  toByte := Float.toUInt8
  ofByte := UInt8.toFloat
  epsilon := Float.ofBits 0x3cb0000000000000

end Highlight
