import Highlight.Colour.Derived
import Highlight.Scalar.Rational
import Mathlib

/-!
# Colours in exact arithmetic

The operations of `Scalar` on the rationals are those of the ordered field, so that what is said of
colours over `Rat` can be said in terms of `max`, `min`, floors and fractions. For a byte colour the
value is its largest byte over 255, and the saturation is how far its smallest byte is from the
largest, as a fraction of the largest.
-/

namespace Highlight

/-! ## Operations -/

namespace Scalar

theorem max_rat (x y : Rat) : Scalar.max x y = Max.max x y := by
  have hmax : Scalar.max x y = if x < y then y else x := rfl
  rw [hmax, max_def]
  split <;> split <;> grind

theorem min_rat (x y : Rat) : Scalar.min x y = Min.min x y := by
  have hmin : Scalar.min x y = if y < x then y else x := rfl
  rw [hmin, min_def]
  split <;> split <;> grind

theorem abs_rat (x : Rat) : Scalar.abs x = |x| := by
  have habs : Scalar.abs x = if x < 0 then -x else x := rfl
  rw [habs]
  split
  · rename_i h
    rw [abs_of_neg h]
  · rename_i h
    rw [abs_of_nonneg (not_lt.mp h)]

theorem floor_rat (x : Rat) : Scalar.floor x = ((⌊x⌋ : Int) : Rat) := rfl

theorem ceil_rat (x : Rat) : Scalar.ceil x = ((⌈x⌉ : Int) : Rat) := by
  have hceil : Scalar.ceil x = ((x.ceil : Int) : Rat) := rfl
  have hfloor : (-x).floor = -⌈x⌉ := by
    show ⌊-x⌋ = -⌈x⌉
    exact Int.floor_neg
  rw [hceil, Rat.ceil_eq_neg_floor_neg, hfloor, neg_neg]

theorem epsilon_rat : (Scalar.epsilon : Rat) = 1 / 4503599627370496 := rfl

end Scalar

/-! ## Rounding -/

namespace Rat

theorem truncate_of_nonneg {x : Rat} (h : 0 ≤ x) : truncate x = ⌊x⌋ := if_pos h

theorem truncate_intCast (n : Int) : truncate (n : Rat) = n := by
  unfold truncate
  split
  · exact Rat.floor_intCast n
  · exact Rat.ceil_intCast n

theorem truncate_mono {x y : Rat} (h : x ≤ y) : truncate x ≤ truncate y := by
  unfold truncate
  split
  · next hx =>
    rw [if_pos (hx.trans h)]
    exact Rat.floor_monotone h
  · next hx =>
    split
    · next hy =>
      have hceil : x.ceil ≤ 0 := Rat.ceil_le_iff.mpr (by push_cast; exact (not_le.mp hx).le)
      exact hceil.trans (Int.floor_nonneg.mpr hy)
    · exact Rat.ceil_le_iff.mpr (h.trans Rat.le_ceil)

end Rat

/-- A number is made a byte by cutting off what follows the point, and what is beyond the bytes. -/
theorem Scalar.toNat_toByte (x : Rat) :
    ((Scalar.toByte x).toNat : Int) = Max.max 0 (Min.min 255 (Rat.truncate x)) := by
  have hbyte : Scalar.toByte x = UInt8.ofNat (clampInt 0 255 (Rat.truncate x)).toNat := rfl
  rw [hbyte, UInt8.toNat_ofNat', clampInt]
  split
  · omega
  · split <;> omega

theorem Scalar.toByte_mono {x y : Rat} (h : x ≤ y) : Scalar.toByte x ≤ Scalar.toByte y := by
  have hx := toNat_toByte x
  have hy := toNat_toByte y
  have hle := Rat.truncate_mono h
  rw [UInt8.le_iff_toNat_le]
  omega

/-- The nearest byte is that of the nearest whole number. -/
theorem Tone.toNat_nearestByte (x : Rat) :
    ((nearestByte x).toNat : Int) = max 0 (min 255 (Rat.nearest x)) := by
  rw [← Rat.truncate_intCast (Rat.nearest x), ← Scalar.toNat_toByte]
  rfl

/-- A whole number within a byte is its own nearest byte. -/
theorem Tone.nearestByte_intCast {n : Int} (hlow : 0 ≤ n) (hhigh : n ≤ 255) :
    (nearestByte (n : Rat)).toNat = n.toNat := by
  have hhalf : ⌊(n : Rat) + 1 / 2⌋ = n := by
    rw [Int.floor_intCast_add]
    norm_num
  have hnearest : Rat.nearest (n : Rat) = n := by
    rw [Rat.nearest, if_pos (by exact_mod_cast hlow)]
    exact hhalf
  have hbyte := toNat_nearestByte (n : Rat)
  rw [hnearest] at hbyte
  omega

/-! ## Bytes -/

namespace Rgb

/-- The largest byte of a colour. -/
def largest (c : Rgb) : Nat := max (max c.red.toNat c.green.toNat) c.blue.toNat

/-- The smallest byte of a colour. -/
def smallest (c : Rgb) : Nat := min (min c.red.toNat c.green.toNat) c.blue.toNat

theorem smallest_le_largest (c : Rgb) : c.smallest ≤ c.largest := by
  unfold smallest largest
  omega

end Rgb

namespace Hsv

theorem value_ofChannels (c : Channels Rat) :
    (ofChannels c).value = max (max c.red c.green) c.blue := by
  rw [← Scalar.max_rat, ← Scalar.max_rat]
  unfold ofChannels
  dsimp only
  split <;> rfl

theorem saturation_ofChannels (c : Channels Rat) :
    (ofChannels c).saturation
      = if |max (max c.red c.green) c.blue - min (min c.red c.green) c.blue|
          < 1 / 4503599627370496 then 0
        else (max (max c.red c.green) c.blue - min (min c.red c.green) c.blue)
          / max (max c.red c.green) c.blue := by
  rw [← Scalar.abs_rat, ← Scalar.max_rat, ← Scalar.max_rat, ← Scalar.min_rat, ← Scalar.min_rat,
    ← Scalar.epsilon_rat]
  unfold ofChannels
  dsimp only
  split
  · norm_num
  · rfl

/-- The channels of a byte colour are its bytes over 255. -/
theorem channels_ofRgb (c : Rgb) : (Channels.ofRgb c : Channels Rat)
    = ⟨(c.red.toNat : Rat) / 255, (c.green.toNat : Rat) / 255, (c.blue.toNat : Rat) / 255⟩ := by
  norm_num [Channels.ofRgb, Scalar.ofByte]

theorem most_ofRgb (c : Rgb) : max (max ((c.red.toNat : Rat) / 255) ((c.green.toNat : Rat) / 255))
    ((c.blue.toNat : Rat) / 255) = (c.largest : Rat) / 255 := by
  have hpos : (0 : Rat) ≤ 255 := by norm_num
  rw [max_div_div_right hpos, max_div_div_right hpos, Rgb.largest]
  push_cast
  rfl

theorem least_ofRgb (c : Rgb) : min (min ((c.red.toNat : Rat) / 255) ((c.green.toNat : Rat) / 255))
    ((c.blue.toNat : Rat) / 255) = (c.smallest : Rat) / 255 := by
  have hpos : (0 : Rat) ≤ 255 := by norm_num
  rw [min_div_div_right hpos, min_div_div_right hpos, Rgb.smallest]
  push_cast
  rfl

/-- The value of a byte colour is its largest byte over 255. -/
theorem value_ofRgb (c : Rgb) : (ofRgb c : Hsv Rat).value = (c.largest : Rat) / 255 := by
  rw [ofRgb, value_ofChannels, channels_ofRgb]
  exact most_ofRgb c

/-- Bytes are far enough apart that only equal ones count as a grey. -/
theorem saturation_ofRgb (c : Rgb) : (ofRgb c : Hsv Rat).saturation
    = ((c.largest : Rat) - c.smallest) / c.largest := by
  rw [ofRgb, saturation_ofChannels, channels_ofRgb, most_ofRgb, least_ofRgb, ← sub_div]
  have hle : (c.smallest : Rat) ≤ c.largest := by exact_mod_cast c.smallest_le_largest
  rw [abs_of_nonneg (div_nonneg (sub_nonneg.mpr hle) (by norm_num))]
  rcases Nat.lt_or_ge c.smallest c.largest with hlt | hge
  · have hstep : (1 : Rat) ≤ c.largest - c.smallest := by
      have hsucc : (c.smallest : Rat) + 1 ≤ c.largest := by exact_mod_cast hlt
      linarith
    rw [if_neg (by linarith), div_div_div_cancel_right₀ (by norm_num)]
  · have hgrey : (c.largest : Rat) = c.smallest := by
      exact_mod_cast Nat.le_antisymm hge c.smallest_le_largest
    rw [hgrey, sub_self, if_pos (by norm_num), zero_div]

end Hsv

end Highlight
