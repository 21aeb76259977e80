import Highlight.Hexadecimal

/-!
# Byte colours and their text

A colour is three bytes. It is written `#rrggbb` with lowercase digits; it is read from three or
six hexadecimal digits of any case, after at most one `#`. A colour of three digits has each digit
doubled.
-/

namespace Highlight

/-- A colour in three bytes. -/
structure Rgb where
  red : UInt8
  green : UInt8
  blue : UInt8
  deriving DecidableEq, Repr, Inhabited

namespace Rgb

/-- The colour of the low twenty-four bits of a number, red in the highest byte. -/
def ofPacked (n : UInt32) : Rgb := ⟨(n >>> 16).toUInt8, (n >>> 8).toUInt8, n.toUInt8⟩

/-- The byte of two hexadecimal digits. -/
def byte? (high low : Char) : Option UInt8 := do
  let h ← hexValue? high
  let l ← hexValue? low
  return UInt8.ofNat (16 * h + l)

/-- The colour of exactly three or six hexadecimal digits. -/
def ofDigits? : List Char → Option Rgb
  | [r, g, b] => do return ⟨← byte? r r, ← byte? g g, ← byte? b b⟩
  | [r, r', g, g', b, b'] => do return ⟨← byte? r r', ← byte? g g', ← byte? b b'⟩
  | _ => none

/-- The colour a text stands for, with or without a leading `#`. -/
def ofHex? (text : String) : Option Rgb :=
  match text.toList with
  | '#' :: digits => ofDigits? digits
  | digits => ofDigits? digits

/-- The two lowercase digits of a byte. -/
def byteDigits (b : UInt8) : List Char := [hexDigit (b.toNat / 16), hexDigit (b.toNat % 16)]

/-- The text of a colour: `#` and six lowercase digits. -/
def text (c : Rgb) : String :=
  String.ofList ('#' :: (byteDigits c.red ++ byteDigits c.green ++ byteDigits c.blue))

end Rgb

end Highlight
