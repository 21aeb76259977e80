import Highlight.Colour.Cycle

/-!
# What a draw takes

The random words stay as they are and only a count of those taken goes up, so that each draw is
told by the count before it: a colour takes the next three words, and a cycle takes those of its
first colour if it has no seed, and else none.
-/

namespace Highlight

/-- What is left once `k` more words are taken. -/
def Entropy.after (e : Entropy) (k : Nat) : Entropy := { e with drawn := e.drawn + k }

namespace Entropy

theorem after_after (e : Entropy) (j k : Nat) :
    (e.after j).after k = e.after (j + k) := by
  simp [after, Nat.add_assoc]

end Entropy

variable (α : Type) [Scalar α]

/-- A random colour is made of the next three words. -/
theorem Rgb.draw_eq (e : Entropy) : draw α e
    = ((Tone.vivid : Tone α).recolour ⟨(e.word e.drawn).toUInt8, (e.word (e.drawn + 1)).toUInt8,
        (e.word (e.drawn + 2)).toUInt8⟩, e.after 3) := rfl

namespace Cycle

/-- How many words the colours of a cycle take. -/
def words (seed : Option String) : Nat := if seed = none then 3 else 0

theorem drawColours_snd (n : Nat) (seed : Option String) (e : Entropy) :
    (drawColours α n seed e).2 = e.after (words seed) := by
  cases seed with
  | none => exact congrArg Prod.snd (Rgb.draw_eq α e)
  | some seed => rfl

/-- A cycle with a seed has nothing to do with chance. -/
theorem drawColours_some (n : Nat) (seed : String) (e e' : Entropy) :
    (drawColours α n (some seed) e).1 = (drawColours α n (some seed) e').1 := rfl

/-- A cycle without a seed starts from the hue of a colour made of the next three words. -/
theorem drawColours_none (n : Nat) (e : Entropy) : (drawColours α n none e).1
    = (hues n (Hsv.ofRgb (Rgb.draw α e).1 : Hsv α).hue).map colour := rfl

end Cycle

end Highlight
