import Highlight.Colour.Cycle
import Highlight.Colour.Palette
import Highlight.Style

/-!
# The colours of a rule

A colour of a scheme becomes a byte colour. A keyword's own colour depends on what it is for: a
vivid one for the letters, a muted one behind them, so that one can be read on the other. A text
that is no colour gives none.
-/

namespace Highlight

/-- What a colour is for. -/
inductive Role where
  | foreground
  | background
  deriving DecidableEq, Repr

/-- The colour that a keyword's own text gives it. -/
def Role.colourOf (role : Role) (keyword : String) : Rgb :=
  match role with
  | .foreground => Rgb.vividOfSeed Float keyword
  | .background => Rgb.mutedOfSeed Float keyword

/-- The colour a text names: hexadecimal digits after `#`, or a colour name, or bare digits. -/
def Rgb.ofText? (text : String) : Option Rgb :=
  if text.toList.head? = some '#' then ofHex? text
  else (ofName? (Text.asName text)).orElse fun _ => ofHex? text

/-- The byte colour of a keyword; a random one is drawn. -/
def ColourChoice.pick (choice : ColourChoice) (keyword : String) (role : Role) (e : Entropy) :
    Option Rgb × Entropy :=
  match choice with
  | .auto => (some (role.colourOf keyword), e)
  | .random =>
    let (c, e) := Rgb.draw Float e
    (some c, e)
  | .literal text => (Rgb.ofText? text, e)

/-- The byte colour of a keyword, if a colour is given for it. -/
def ColourChoice.pick? (choice : Option ColourChoice) (keyword : String) (role : Role)
    (e : Entropy) : Option Rgb × Entropy :=
  match choice with
  | some choice => choice.pick keyword role e
  | none => (none, e)

end Highlight
