import Highlight.Colour.Derived

/-!
# Colours spread round the hue circle

Each hue of a cycle is one golden-ratio step after the one before, so that any number of them stays
spread round the circle. All colours of a cycle share one saturation and one value. The first hue
is that of a seed, or else of one random colour.
-/

namespace Highlight.Cycle

variable {α : Type} [Scalar α]

/-- The step from one hue to the next, the reciprocal of the golden ratio. -/
def step : α := 0.618033988749895

/-- `n` hues from `hue` on, each a step after the one before. -/
def hues : Nat → (hue : α) → List α
  | 0, _ => []
  | n + 1, hue => hue :: hues n (Scalar.fract (hue + step))

/-- The colour of a hue in a cycle. -/
def colour (hue : α) : Rgb := Hsv.toRgb ⟨hue, 0.5, 0.95⟩

variable (α)

/-- The hue that a cycle starts from; without a seed it is that of a drawn colour. -/
def start (seed : Option String) (e : Entropy) : α × Entropy :=
  match seed with
  | some seed => ((Hsv.ofRgb (Rgb.ofSeed seed)).hue, e)
  | none =>
    let (c, e) := Rgb.draw α e
    ((Hsv.ofRgb c).hue, e)

/-- The hues of a cycle of `n` colours. -/
def drawHues (n : Nat) (seed : Option String) (e : Entropy) : List α × Entropy :=
  let (hue, e) := start α seed e
  (hues n hue, e)

/-- The colours of a cycle of `n`. -/
def drawColours (n : Nat) (seed : Option String) (e : Entropy) : List Rgb × Entropy :=
  let (hs, e) := drawHues α n seed e
  (hs.map colour, e)

end Highlight.Cycle
