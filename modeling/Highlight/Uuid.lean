import Highlight.Entropy
import Highlight.Hexadecimal

/-!
# Random identifiers

A version-four UUID: 32 hexadecimal digits in groups, of which six bits tell the version and the
variant and all others are random.
-/

namespace Highlight.Uuid

/-- The two digits of a byte. -/
def byteText (b : UInt8) : List Char := [hexDigit (b.toNat / 16), hexDigit (b.toNat % 16)]

/-- The identifier with the random bytes at the positions from `first` on. -/
def ofWords (word : Nat → UInt32) (first : Nat) : String :=
  let byte (i : Nat) : UInt8 :=
    let b := (word (first + i)).toUInt8
    if i = 6 then (b &&& 0x0f) ||| 0x40 else if i = 8 then (b &&& 0x3f) ||| 0x80 else b
  let group (start count : Nat) : List Char :=
    (List.range count).flatMap fun i => byteText (byte (start + i))
  String.ofList (group 0 4 ++ '-' :: group 4 2 ++ '-' :: group 6 2 ++ '-' :: group 8 2
    ++ '-' :: group 10 6)

end Highlight.Uuid
