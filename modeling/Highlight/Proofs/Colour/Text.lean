import Highlight.Rule.Colour

/-!
# Byte colours are read back from their text

A colour is written with two digits for each byte, and each pair of digits is the byte it was
written for. So a colour can be kept as a text: whatever is written is read as the same colour, and
since it starts with `#` it is never taken for a colour name.
-/

namespace Highlight.Rgb

theorem byte?_hexDigit (b : UInt8) :
    byte? (hexDigit (b.toNat / 16)) (hexDigit (b.toNat % 16)) = some b := by
  have hb : b.toNat < 256 := b.toNat_lt
  have hhigh := hexValue?_hexDigit (b.toNat / 16) (by omega)
  have hlow := hexValue?_hexDigit (b.toNat % 16) (by omega)
  have hbyte : 16 * (b.toNat / 16) + b.toNat % 16 = b.toNat := Nat.div_add_mod _ _
  simp only [byte?, hhigh, hlow, Option.bind_eq_bind, Option.bind_some, Option.pure_def, hbyte,
    UInt8.ofNat_toNat]

/-- **The text of a colour is read as that colour.** -/
theorem ofHex?_text (c : Rgb) : ofHex? c.text = some c := by
  rw [ofHex?, text, String.toList_ofList]
  simp only [byteDigits, List.cons_append, List.nil_append, ofDigits?, byte?_hexDigit,
    Option.bind_eq_bind, Option.bind_some, Option.pure_def]

/-- The text of a colour is not looked up among the colour names. -/
theorem ofText?_text (c : Rgb) : ofText? c.text = some c := by
  have hhead : c.text.toList.head? = some '#' := by
    rw [text, String.toList_ofList]
    rfl
  rw [ofText?, if_pos hhead, ofHex?_text]

end Highlight.Rgb
