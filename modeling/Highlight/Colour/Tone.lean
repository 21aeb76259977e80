import Highlight.Colour.Hsv

/-!
# Vivid and muted colours

A tone is a band for the saturation and one for the value. `Tone.place` moves a colour into a tone
by mapping the unit interval onto each band, and `Tone.quantise` rounds the result to bytes without
leaving the bands: rounding the largest and the smallest channel apart could carry a colour just
past a band's edge. Foregrounds are vivid, backgrounds muted.
-/

namespace Highlight

variable {α : Type}

/-- An interval of numbers, ends included. -/
structure Band (α : Type) where
  lower : α
  upper : α

/-- The saturations and values that colours of one kind have. -/
structure Tone (α : Type) where
  saturation : Band α
  value : Band α

/-- One of the three channels. -/
inductive Primary where
  | red
  | green
  | blue
  deriving DecidableEq

/-- The channel of one primary. -/
def Channels.get (c : Channels α) : Primary → α
  | .red => c.red
  | .green => c.green
  | .blue => c.blue

/-- `x` pulled into the interval from `low` to `high`. -/
def clampByte (low high x : UInt8) : UInt8 := if x < low then low else if high < x then high else x

variable [Scalar α]

/-- The point of the band at the fraction `x` of its length. -/
def Band.place (b : Band α) (x : α) : α := Scalar.mulAdd (b.upper - b.lower) x b.lower

namespace Channels

/-- The first primary with the largest channel. -/
def brightest (c : Channels α) : Primary :=
  let best : Primary := if c.red < c.green then .green else .red
  if c.get best < c.blue then .blue else best

/-- The first primary other than `top` with the smallest channel. -/
def darkest (c : Channels α) : Primary → Primary
  | .red => if c.blue < c.green then .blue else .green
  | .green => if c.blue < c.red then .blue else .red
  | .blue => if c.green < c.red then .green else .red

end Channels

namespace Tone

/-- Bright, saturated colours: what foregrounds are drawn in. -/
def vivid : Tone α := ⟨⟨0.2, 1.0⟩, ⟨0.67, 1.0⟩⟩

/-- Dark, greyish colours: what backgrounds are drawn in. -/
def muted : Tone α := ⟨⟨0.0, 0.2⟩, ⟨0.0, 0.67⟩⟩

/-- The channels, from 0 to 255, of `c` moved into the tone with its hue kept. -/
def place (t : Tone α) (c : Rgb) : Channels α :=
  let hsv : Hsv α := Hsv.ofRgb c
  let placed : Hsv α := ⟨hsv.hue, t.saturation.place hsv.saturation, t.value.place hsv.value⟩
  placed.channels.scale 255.0

/-- The byte nearest to `x`. -/
def nearestByte (x : α) : UInt8 := Scalar.toByte (Scalar.nearest x)

/--
The byte colour nearest to `c` among those whose largest byte lies in the value band and whose
smallest one keeps the saturation in its band.
-/
def quantise (t : Tone α) (c : Channels α) : Rgb :=
  let top := c.brightest
  let bottom := c.darkest top
  let topFloor := nearestByte (Scalar.ceil (t.value.lower * 255.0))
  let topCeil := nearestByte (Scalar.floor (t.value.upper * 255.0))
  let most := clampByte topFloor (if topCeil < topFloor then topFloor else topCeil)
    (nearestByte (c.get top))
  let bound : α := Scalar.ofByte most
  let bottomFloor := nearestByte (Scalar.ceil ((1.0 - t.saturation.upper) * bound))
  let bottomCeil := nearestByte (Scalar.floor ((1.0 - t.saturation.lower) * bound))
  let bottomCeil := if bottomCeil < bottomFloor then bottomFloor else bottomCeil
  let slot (p : Primary) : UInt8 :=
    if p = top then most
    else
      let x := clampByte bottomFloor most (nearestByte (c.get p))
      if p = bottom ∧ bottomCeil < x then bottomCeil else x
  ⟨slot .red, slot .green, slot .blue⟩

/-- The byte colour of `c` moved into the tone. -/
def recolour (t : Tone α) (c : Rgb) : Rgb := t.quantise (t.place c)

end Tone

end Highlight
