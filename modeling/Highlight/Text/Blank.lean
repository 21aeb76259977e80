/-!
# White space

The characters with the Unicode property White_Space, and texts without any round them.
-/

namespace Highlight.Text

/-- Whether a character has the Unicode property White_Space. -/
def isWhite (c : Char) : Bool :=
  let n := c.toNat
  (0x09 ≤ n && n ≤ 0x0d) || n == 0x20 || n == 0x85 || n == 0xa0 || n == 0x1680
    || (0x2000 ≤ n && n ≤ 0x200a) || n == 0x2028 || n == 0x2029 || n == 0x202f || n == 0x205f
    || n == 0x3000

/-- Characters without the white ones at either end. -/
def trimmed (text : List Char) : List Char :=
  ((text.dropWhile isWhite).reverse.dropWhile isWhite).reverse

/-- A text without white space at either end. -/
def trim (text : String) : String := String.ofList (trimmed text.toList)

end Highlight.Text
