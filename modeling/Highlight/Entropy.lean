import Highlight.Sha1

/-!
# Where random choices come from

An endless sequence of 32-bit words, and how many of them were taken. Whatever is drawn is thus a
function of the words, and what was not drawn cannot matter.
-/

namespace Highlight

/-- A source of random words. -/
structure Entropy where
  /-- The word at each position. -/
  word : Nat → UInt32
  /-- How many words were taken. -/
  drawn : Nat := 0

namespace Entropy

/-- The next random byte: the low eight bits of the next word. -/
def byte (e : Entropy) : UInt8 × Entropy :=
  ((e.word e.drawn).toUInt8, { e with drawn := e.drawn + 1 })

/-- The given words, over and over; zeros if there are none. -/
def cycle (words : List UInt32) : Entropy where
  word n := words.getD (n % words.length) 0

/-- Words that depend on nothing but a seed: the digests of the seed with a running number. -/
def ofSeed (seed : List UInt8) : Entropy where
  word n := (Sha1.digest (seed ++ Sha1.lengthBytes (UInt64.ofNat n))).a

end Entropy

end Highlight
