import Highlight.Scalar
import Highlight.Colour.Rgb

/-!
# Hue, saturation and value

Colours are derived in hue, saturation and value, each in the unit interval, the hue going round
from red to red. `Hsv.ofChannels` and `Hsv.channels` convert from and to red, green and blue
channels in the unit interval.
-/

namespace Highlight

variable {α : Type}

/-- The amounts of red, green and blue in a colour. -/
structure Channels (α : Type) where
  red : α
  green : α
  blue : α

/-- A colour by hue, saturation and value. -/
structure Hsv (α : Type) where
  hue : α
  saturation : α
  value : α

namespace Channels

variable [Scalar α]

/-- Every channel times `k`. -/
def scale (k : α) (c : Channels α) : Channels α := ⟨c.red * k, c.green * k, c.blue * k⟩

/-- The channels of a byte colour, in the unit interval. -/
def ofRgb (c : Rgb) : Channels α :=
  ⟨Scalar.ofByte c.red / 255.0, Scalar.ofByte c.green / 255.0, Scalar.ofByte c.blue / 255.0⟩

/-- The byte colour nearest to channels between 0 and 255; channels beyond are cut off. -/
def toRgb (c : Channels α) : Rgb :=
  ⟨Scalar.toByte (c.red + 0.5), Scalar.toByte (c.green + 0.5), Scalar.toByte (c.blue + 0.5)⟩

end Channels

namespace Hsv

variable [Scalar α]

/--
The hue, saturation and value of channels in the unit interval. Channels closer together than
`Scalar.epsilon` are a grey, which has neither hue nor saturation.
-/
def ofChannels (c : Channels α) : Hsv α :=
  let most := Scalar.max (Scalar.max c.red c.green) c.blue
  let least := Scalar.min (Scalar.min c.red c.green) c.blue
  if Scalar.abs (most - least) < Scalar.epsilon then ⟨0.0, 0.0, most⟩
  else
    let spread := most - least
    let red := (most - c.red) / spread
    let green := (most - c.green) / spread
    let blue := (most - c.blue) / spread
    let sixths :=
      if Scalar.abs (c.red - most) < Scalar.epsilon then blue - green
      else if Scalar.abs (c.green - most) < Scalar.epsilon then 2.0 + red - blue
      else 4.0 + green - red
    ⟨Scalar.fract (sixths / 6.0), spread / most, most⟩

/-- The channels, in the unit interval, of a hue, saturation and value. -/
def channels (c : Hsv α) : Channels α :=
  if c.saturation ≤ 0.0 then ⟨c.value, c.value, c.value⟩
  else
    let sector := Scalar.floor (c.hue * 6.0)
    let rest := Scalar.mulAdd c.hue 6.0 (-sector)
    let low := c.value * (1.0 - c.saturation)
    let falling := c.value * Scalar.mulAdd c.saturation (-rest) 1.0
    let rising := c.value * Scalar.mulAdd c.saturation (-(1.0 - rest)) 1.0
    match Scalar.toInteger sector % 6 with
    | 0 => ⟨c.value, rising, low⟩
    | 1 => ⟨falling, c.value, low⟩
    | 2 => ⟨low, c.value, rising⟩
    | 3 => ⟨low, falling, c.value⟩
    | 4 => ⟨rising, low, c.value⟩
    | _ => ⟨c.value, low, falling⟩

/-- The hue, saturation and value of a byte colour. -/
def ofRgb (c : Rgb) : Hsv α := ofChannels (Channels.ofRgb c)

/-- The byte colour nearest to a hue, saturation and value. -/
def toRgb (c : Hsv α) : Rgb := (c.channels.scale 255.0).toRgb

end Hsv

end Highlight
