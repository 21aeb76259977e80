import Highlight.Decimal.Scaled
import Highlight.Hexadecimal
import Highlight.Json.Basic

/-!
# Reading documents

A reader takes the front of a text off and returns what it stands for together with the rest, or
says why it cannot: the text ends too early, it is no JSON at all, or it is JSON of another shape
than asked for. The failure met first, from left to right, is the one reported.

`items` and `members` read the inside of an array and of an object with a reader for one item or
one member, so that a document with fixed fields can be read by the same loops as a free one.
At most `maxDepth` containers may stand inside each other.
-/

namespace Highlight.Json

/-- Why a text was not read. -/
inductive Failure where
  /-- The text ends too early. -/
  | cutShort
  /-- The text is not JSON, nests too deeply or holds a number that is too large. -/
  | illFormed
  /-- The text is JSON, but of another shape than asked for. -/
  | illTyped
  deriving DecidableEq, Repr

/-- Reads the front of a text. -/
abbrev Reader (α : Type) := List Char → Except Failure (α × List Char)

/-- How many containers may stand inside each other. -/
def maxDepth : Nat := 127

/-- Blank characters between the parts of a document. -/
def isBlank (c : Char) : Bool := c == ' ' || c == '\n' || c == '\t' || c == '\r'

/-- The text from its first character that is not blank. -/
def skipBlank (text : List Char) : List Char := text.dropWhile isBlank

/-! ## Texts -/

/-- The character that a one-letter escape stands for. -/
def unescape? : Char → Option Char
  | '"' => some '"'
  | '\\' => some '\\'
  | '/' => some '/'
  | 'b' => some '\x08'
  | 'f' => some '\x0c'
  | 'n' => some '\n'
  | 'r' => some '\r'
  | 't' => some '\t'
  | _ => none

/-- The value of four hexadecimal digits. -/
def fourDigits? (a b c d : Char) : Option Nat := do
  return 4096 * (← hexValue? a) + 256 * (← hexValue? b) + 16 * (← hexValue? c) + (← hexValue? d)

/-- What is wrong where four hexadecimal digits should stand: fewer than four bytes, or others. -/
def badDigits (text : List Char) : Failure :=
  if (String.ofList text).utf8ByteSize < 4 then .cutShort else .illFormed

/-- Whether a code unit is the first half of a pair. -/
def isLeading (unit : Nat) : Bool := 0xd800 ≤ unit && unit ≤ 0xdbff

/-- Whether a code unit is the second half of a pair. -/
def isTrailing (unit : Nat) : Bool := 0xdc00 ≤ unit && unit ≤ 0xdfff

/-- The character of a pair of code units. -/
def ofPair (leading trailing : Nat) : Char :=
  Char.ofNat (0x10000 + (leading - 0xd800) * 0x400 + (trailing - 0xdc00))

/--
The characters of a text up to its closing quote, which is taken off too. An escaped code unit
that is the first half of a pair must be followed by the second half.
-/
def stringBody : Reader (List Char)
  | [] => .error .cutShort
  | '"' :: rest => .ok ([], rest)
  | '\\' :: 'u' :: a :: b :: c :: d :: rest =>
    match fourDigits? a b c d with
    | none => .error (badDigits (a :: b :: c :: d :: rest))
    | some unit =>
      if isTrailing unit then .error .illFormed
      else if isLeading unit then
        match rest with
        | '\\' :: 'u' :: a' :: b' :: c' :: d' :: rest =>
          match fourDigits? a' b' c' d' with
          | none => .error (badDigits (a' :: b' :: c' :: d' :: rest))
          | some unit' =>
            if isTrailing unit' then do
              let (s, rest) ← stringBody rest
              return (ofPair unit unit' :: s, rest)
            else .error .illFormed
        | '\\' :: 'u' :: rest => .error (badDigits rest)
        | ['\\'] => .error .cutShort
        | [] => .error .cutShort
        | _ => .error .illFormed
      else do
        let (s, rest) ← stringBody rest
        return (Char.ofNat unit :: s, rest)
  | '\\' :: 'u' :: rest => .error (badDigits rest)
  | ['\\'] => .error .cutShort
  | '\\' :: e :: rest =>
    match unescape? e with
    | none => .error .illFormed
    | some c => do
      let (s, rest) ← stringBody rest
      return (c :: s, rest)
  | c :: rest =>
    if c.toNat < 0x20 then .error .illFormed
    else do
      let (s, rest) ← stringBody rest
      return (c :: s, rest)

/-! ## Numbers -/

/-- The decimal digits at the front of a text, and the rest. -/
def digits : List Char → List Nat × List Char
  | [] => ([], [])
  | c :: rest =>
    if c.isDigit then
      let (ds, rest) := digits rest
      ((c.toNat - '0'.toNat) :: ds, rest)
    else ([], c :: rest)

/-- The decimal digits at the front of a text, of which there must be one at least. -/
def someDigits : Reader (List Nat) := fun text =>
  match digits text with
  | ([], []) => .error .cutShort
  | ([], _ :: _) => .error .illFormed
  | ds => .ok ds

/-- The digits before the point of a number: no zero stands before another digit. -/
def wholeDigits : Reader (List Nat) := fun text => do
  match ← someDigits text with
  | (0 :: _ :: _, _) => .error .illFormed
  | r => return r

/-- The digits after a point, if there is one. -/
def fractionDigits : Reader (Option (List Nat))
  | '.' :: rest => do
    let (ds, rest) ← someDigits rest
    return (some ds, rest)
  | text => .ok (none, text)

/-- The value of decimal digits. -/
def digitsValue (ds : List Nat) : Nat := ds.foldl (fun n d => 10 * n + d) 0

/-- The power of ten of a number, if one is given. -/
def exponent : Reader (Option Int) := fun text =>
  match text with
  | c :: rest =>
    if c = 'e' ∨ c = 'E' then
      match rest with
      | '-' :: rest => do
        let (ds, rest) ← someDigits rest
        return (some (-(digitsValue ds : Int)), rest)
      | '+' :: rest => do
        let (ds, rest) ← someDigits rest
        return (some (digitsValue ds : Int), rest)
      | rest => do
        let (ds, rest) ← someDigits rest
        return (some (digitsValue ds : Int), rest)
    else .ok (none, text)
  | [] => .ok (none, text)

/-- The integer with the given digits, if it fits 64 bits; minus zero is no integer. -/
def integer? (negative : Bool) (whole : List Nat) : Option Int :=
  let n := digitsValue whole
  if negative then if 0 < n ∧ n ≤ UInt64.size / 2 then some (-(n : Int)) else none
  else if n < UInt64.size then some n else none

/-- A number after its minus sign, if it has one. -/
def unsigned (negative : Bool) : Reader Number := fun text => do
  let (whole, rest) ← wholeDigits text
  let (fraction, rest) ← fractionDigits rest
  let (power, rest) ← exponent rest
  match integer? negative whole, fraction, power with
  | some n, none, none => return (.integer n, rest)
  | _, _, _ =>
    match (Decimal.Scaled.ofDigits whole (fraction.getD []) (power.getD 0)).toFloat? with
    | none => .error .illFormed
    | some x => return (.real (if negative then -x else x), rest)

/-! ## Arrays and objects -/

variable {α σ : Type}

/-- Takes a fixed word off the front. -/
def word : List Char → (word : List Char) → Except Failure (List Char)
  | text, [] => .ok text
  | [], _ :: _ => .error .cutShort
  | c :: text, d :: ds => if c = d then word text ds else .error .illFormed

/-- Items separated by commas up to the closing bracket; at most `bound` of them. -/
def itemsFrom (item : Reader α) : (bound : Nat) → Reader (List α)
  | 0, _ => .error .cutShort
  | bound + 1, text => do
    let (x, rest) ← item text
    match skipBlank rest with
    | [] => .error .cutShort
    | ']' :: rest => return ([x], rest)
    | ',' :: rest =>
      match skipBlank rest with
      | [] => .error .cutShort
      | ']' :: _ => .error .illFormed
      | rest =>
        let (xs, rest) ← itemsFrom item bound rest
        return (x :: xs, rest)
    | _ => .error .illFormed

/-- The items of an array after its opening bracket, and the closing one. -/
def items (item : Reader α) : Reader (List α) := fun text =>
  match skipBlank text with
  | [] => .error .cutShort
  | ']' :: rest => .ok ([], rest)
  | rest => itemsFrom item rest.length rest

/-- What `member` reads of a member whose opening quote was taken off: it gets the name. -/
def named (member : σ → String → Reader σ) (s : σ) : Reader σ := fun text => do
  let (name, rest) ← stringBody text
  member s (String.ofList name) rest

/-- Members separated by commas up to the closing brace; at most `bound` of them. -/
def membersFrom (member : σ → String → Reader σ) : (bound : Nat) → σ → Reader σ
  | 0, _, _ => .error .cutShort
  | bound + 1, s, text => do
    let (s, rest) ← named member s text
    match skipBlank rest with
    | [] => .error .cutShort
    | '}' :: rest => return (s, rest)
    | ',' :: rest =>
      match skipBlank rest with
      | [] => .error .cutShort
      | '"' :: rest => membersFrom member bound s rest
      | _ => .error .illFormed
    | _ => .error .illFormed

/--
The members of an object after its opening brace, and the closing one. `member` is given what was
gathered so far and the name of a member, and reads from the colon on.
-/
def members (member : σ → String → Reader σ) (s : σ) : Reader σ := fun text =>
  match skipBlank text with
  | [] => .error .cutShort
  | '}' :: rest => .ok (s, rest)
  | '"' :: rest => membersFrom member rest.length s rest
  | _ => .error .illFormed

/-- A colon and then what `value` reads. -/
def afterColon (value : Reader α) : Reader α := fun text =>
  match skipBlank text with
  | [] => .error .cutShort
  | ':' :: rest => value rest
  | _ => .error .illFormed

/-! ## Documents -/

/-- A document with at most `depth` containers inside each other. -/
def value : (depth : Nat) → Reader Json
  | depth, text =>
    match skipBlank text with
    | [] => .error .cutShort
    | 'n' :: rest => do return (.null, ← word rest ['u', 'l', 'l'])
    | 't' :: rest => do return (.bool true, ← word rest ['r', 'u', 'e'])
    | 'f' :: rest => do return (.bool false, ← word rest ['a', 'l', 's', 'e'])
    | '"' :: rest => do
      let (s, rest) ← stringBody rest
      return (.string (String.ofList s), rest)
    | '[' :: rest =>
      match depth with
      | 0 => .error .illFormed
      | depth + 1 => do
        let (xs, rest) ← items (value depth) rest
        return (.array xs, rest)
    | '{' :: rest =>
      match depth with
      | 0 => .error .illFormed
      | depth + 1 => do
        let entry (t : Table Json) (name : String) : Reader (Table Json) :=
          afterColon fun text => do
            let (v, rest) ← value depth text
            return (t.put name v, rest)
        let (ms, rest) ← members entry [] rest
        return (.object ms, rest)
    | '-' :: rest => do
      let (n, rest) ← unsigned true rest
      return (.number n, rest)
    | c :: rest =>
      if c.isDigit then do
        let (n, rest) ← unsigned false (c :: rest)
        return (.number n, rest)
      else .error .illFormed

/-- What `reader` makes of a whole text; only blanks may follow. -/
def whole (reader : Reader α) (text : String) : Except Failure α := do
  let (x, rest) ← reader text.toList
  if skipBlank rest = [] then return x else .error .illFormed

/-- The document a text stands for. A repeated member keeps its first place and its last value. -/
def read (text : String) : Except Failure Json := whole (value maxDepth) text

end Highlight.Json
