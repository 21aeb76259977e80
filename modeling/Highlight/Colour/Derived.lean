import Highlight.Colour.Tone
import Highlight.Entropy

/-!
# Colours from a seed and from chance

A seed text always gives the same colour: the last three bytes of its SHA-1 digest, the last of
all being the red. A random colour is made of three random bytes. Both are moved into a tone
before they are used, except for pastels, which lie halfway between chance and a tint.
-/

namespace Highlight.Rgb

/-- The colour in the last three bytes of the digest of `seed`, read backward. -/
def ofSeed (seed : String) : Rgb :=
  let last := (Sha1.digest seed.toUTF8.toList).e
  ⟨last.toUInt8, (last >>> 8).toUInt8, (last >>> 16).toUInt8⟩

/-- The vivid colour of a seed, computed in the arithmetic of `α`. -/
def vividOfSeed (α : Type) [Scalar α] (seed : String) : Rgb :=
  (Tone.vivid : Tone α).recolour (ofSeed seed)

/-- The muted colour of a seed, computed in the arithmetic of `α`. -/
def mutedOfSeed (α : Type) [Scalar α] (seed : String) : Rgb :=
  (Tone.muted : Tone α).recolour (ofSeed seed)

/-- A colour of three random bytes: red, green, blue. -/
def drawBytes (e : Entropy) : Rgb × Entropy :=
  let (red, e) := e.byte
  let (green, e) := e.byte
  let (blue, e) := e.byte
  (⟨red, green, blue⟩, e)

/-- A random vivid colour, computed in the arithmetic of `α`. -/
def draw (α : Type) [Scalar α] (e : Entropy) : Rgb × Entropy :=
  let (c, e) := drawBytes e
  ((Tone.vivid : Tone α).recolour c, e)

/-- The mean of two bytes, rounded down. -/
def meanByte (x y : UInt8) : UInt8 := UInt8.ofNat ((x.toNat + y.toNat) / 2)

/-- A random colour pulled halfway to `tint`. -/
def drawPastel (tint : Rgb) (e : Entropy) : Rgb × Entropy :=
  let (c, e) := drawBytes e
  (⟨meanByte c.red tint.red, meanByte c.green tint.green, meanByte c.blue tint.blue⟩, e)

/-- `n` colours drawn one after another. -/
def drawMany (one : Entropy → Rgb × Entropy) : Nat → Entropy → List Rgb × Entropy
  | 0, e => ([], e)
  | n + 1, e =>
    let (c, e) := one e
    let (rest, e) := drawMany one n e
    (c :: rest, e)

end Highlight.Rgb
