/-!
# SHA-1

The digest that seeds a colour from a text. The message is padded to whole blocks of sixteen
words, and each block is mixed into five running words in eighty rounds. The message schedule is
kept as a window of the sixteen latest words: each round uses the oldest and appends the next.
-/

namespace Highlight.Sha1

/-- The five running words. -/
structure State where
  a : UInt32
  b : UInt32
  c : UInt32
  d : UInt32
  e : UInt32
  deriving DecidableEq, Repr

/-- The running words before any block. -/
def State.initial : State := ⟨0x67452301, 0xefcdab89, 0x98badcfe, 0x10325476, 0xc3d2e1f0⟩

instance : Add State where
  add s t := ⟨s.a + t.a, s.b + t.b, s.c + t.c, s.d + t.d, s.e + t.e⟩

/-- `w` with its bits moved up by `n` places, those pushed out coming in below. -/
def rotate (n : UInt32) (w : UInt32) : UInt32 := (w <<< n) ||| (w >>> (32 - n))

/-- The mixing function and the constant of a round. -/
def mix (round : Nat) (b c d : UInt32) : UInt32 × UInt32 :=
  if round < 20 then ((b &&& c) ||| (~~~b &&& d), 0x5a827999)
  else if round < 40 then (b ^^^ c ^^^ d, 0x6ed9eba1)
  else if round < 60 then ((b &&& c) ||| (b &&& d) ||| (c &&& d), 0x8f1bbcdc)
  else (b ^^^ c ^^^ d, 0xca62c1d6)

/-- One round with the schedule's word `w`. -/
def State.round (s : State) (round : Nat) (w : UInt32) : State :=
  let (f, k) := mix round s.b s.c s.d
  ⟨rotate 5 s.a + f + s.e + k + w, s.a, rotate 30 s.b, s.c, s.d⟩

/-- The word that follows a window of sixteen words of the schedule. -/
def nextWord (window : List UInt32) : UInt32 :=
  rotate 1 (window.getD 13 0 ^^^ window.getD 8 0 ^^^ window.getD 2 0 ^^^ window.getD 0 0)

/-- The last `left` rounds of a block, over the window of the schedule. -/
def rounds : (left : Nat) → (window : List UInt32) → State → State
  | 0, _, s => s
  | left + 1, window, s =>
    rounds left (window.tail ++ [nextWord window]) (s.round (79 - left) (window.headD 0))

/-- Mixes a block of sixteen words into the running words. -/
def State.block (s : State) (words : List UInt32) : State := s + rounds 80 words s

/-- The bytes of a 64-bit number, highest first. -/
def lengthBytes (n : UInt64) : List UInt8 :=
  ([56, 48, 40, 32, 24, 16, 8, 0] : List UInt64).map fun shift => (n >>> shift).toUInt8

/-- The message, a one bit, zero bits up to a whole number of blocks, and its length in bits. -/
def padded (message : List UInt8) : List UInt8 :=
  message ++ 0x80 :: List.replicate ((119 - message.length % 64) % 64) 0
    ++ lengthBytes (UInt64.ofNat (8 * message.length))

/-- Bytes taken four at a time as words, highest byte first. -/
def words : List UInt8 → List UInt32
  | a :: b :: c :: d :: rest =>
    (a.toUInt32 <<< 24 ||| b.toUInt32 <<< 16 ||| c.toUInt32 <<< 8 ||| d.toUInt32) :: words rest
  | _ => []

/-- Takes one more word: a full block is mixed in, and a new block begins. -/
def State.feed (s : State × List UInt32) (w : UInt32) : State × List UInt32 :=
  let block := s.2 ++ [w]
  if block.length = 16 then (s.1.block block, []) else (s.1, block)

/-- The five words of the digest of a message. -/
def digest (message : List UInt8) : State :=
  ((words (padded message)).foldl State.feed (.initial, [])).1

end Highlight.Sha1
