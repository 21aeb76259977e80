import Highlight.Json.Basic
import Highlight.Decimal.Shortest
import Highlight.Hexadecimal

/-!
# Writing documents

A document is written either on one line without spaces or with each item and member on a line of
its own, two spaces further in. An empty array or object is always `[]` or `{}`. In texts only the
quote, the backslash and the control characters below the space are escaped.
-/

namespace Highlight

/-- Where the digits of a decimal are laid out plainly and where with an exponent. -/
structure DecimalLayout where
  /-- The least power of ten of the first digit that is written plainly. -/
  plainFrom : Int
  /-- From this power of ten of the first digit on an exponent is written. -/
  plainBelow : Int

/-- The text of a decimal; a plain one always has a fraction. -/
def DecimalLayout.write (layout : DecimalLayout) (d : Decimal.Shortest) : List Char :=
  let digits := Nat.toDigits 10 d.digits
  let first := d.exponent + digits.length - 1
  if layout.plainFrom ≤ first ∧ first < layout.plainBelow then
    if 0 ≤ d.exponent then digits ++ List.replicate d.exponent.toNat '0' ++ ['.', '0']
    else if 0 ≤ first then
      digits.take (first.toNat + 1) ++ '.' :: digits.drop (first.toNat + 1)
    else '0' :: '.' :: List.replicate (-first - 1).toNat '0' ++ digits
  else
    digits.take 1 ++ (if digits.length = 1 then [] else '.' :: digits.drop 1)
      ++ 'e' :: (if first < 0 then '-' else '+') :: Nat.toDigits 10 first.natAbs

namespace Number

/-- Powers of ten from -5 to 15 are written plainly. -/
def layout : DecimalLayout := ⟨-5, 16⟩

/-- The text of a number. One that is no real number has none in a document and is a null. -/
def write : Number → List Char
  | integer n => (if n < 0 then ['-'] else []) ++ Nat.toDigits 10 n.natAbs
  | real x =>
    match Binary64.unpack x with
    | .zero s => (if s == .negative then ['-'] else []) ++ ['0', '.', '0']
    | .finite s m q _ =>
      (if s == .negative then ['-'] else []) ++ layout.write (.ofBinary m q)
    | _ => ['n', 'u', 'l', 'l']

end Number

namespace Json

/-- A character as it is written between quotes. -/
def writeChar (c : Char) : List Char :=
  match c with
  | '"' => ['\\', '"']
  | '\\' => ['\\', '\\']
  | '\x08' => ['\\', 'b']
  | '\t' => ['\\', 't']
  | '\n' => ['\\', 'n']
  | '\x0c' => ['\\', 'f']
  | '\r' => ['\\', 'r']
  | c =>
    if c.toNat < 0x20 then
      ['\\', 'u', '0', '0', hexDigit (c.toNat / 16), hexDigit (c.toNat % 16)]
    else [c]

/-- A text between quotes. -/
def writeString (s : String) : List Char := '"' :: (s.toList.flatMap writeChar ++ ['"'])

mutual

/-- A document on one line without spaces. -/
def writeCompact : Json → List Char
  | null => ['n', 'u', 'l', 'l']
  | bool true => ['t', 'r', 'u', 'e']
  | bool false => ['f', 'a', 'l', 's', 'e']
  | number n => n.write
  | string s => writeString s
  | array [] => ['[', ']']
  | array (item :: rest) => '[' :: (writeCompact item ++ writeCompactItems rest)
  | object [] => ['{', '}']
  | object ((name, v) :: rest) =>
    '{' :: (writeString name ++ ':' :: (writeCompact v ++ writeCompactMembers rest))

/-- The items after the first one, and the closing bracket. -/
def writeCompactItems : List Json → List Char
  | [] => [']']
  | item :: rest => ',' :: (writeCompact item ++ writeCompactItems rest)

/-- The members after the first one, and the closing brace. -/
def writeCompactMembers : List (String × Json) → List Char
  | [] => ['}']
  | (name, v) :: rest =>
    ',' :: (writeString name ++ ':' :: (writeCompact v ++ writeCompactMembers rest))

end

/-- A new line, indented by `depth` steps. -/
def newLine (depth : Nat) : List Char := '\n' :: List.replicate (2 * depth) ' '

mutual

/-- A document with each item and member on its own line, `depth` steps in. -/
def writePretty : (depth : Nat) → Json → List Char
  | _, null => ['n', 'u', 'l', 'l']
  | _, bool true => ['t', 'r', 'u', 'e']
  | _, bool false => ['f', 'a', 'l', 's', 'e']
  | _, number n => n.write
  | _, string s => writeString s
  | _, array [] => ['[', ']']
  | depth, array (item :: rest) =>
    '[' :: (newLine (depth + 1) ++ writePretty (depth + 1) item ++ writePrettyItems depth rest)
  | _, object [] => ['{', '}']
  | depth, object ((name, v) :: rest) =>
    '{' :: (newLine (depth + 1) ++ writeString name ++ ':' :: ' ' ::
      (writePretty (depth + 1) v ++ writePrettyMembers depth rest))

/-- The items after the first one, and the closing bracket. -/
def writePrettyItems : (depth : Nat) → List Json → List Char
  | depth, [] => newLine depth ++ [']']
  | depth, item :: rest =>
    ',' :: (newLine (depth + 1) ++ writePretty (depth + 1) item ++ writePrettyItems depth rest)

/-- The members after the first one, and the closing brace. -/
def writePrettyMembers : (depth : Nat) → List (String × Json) → List Char
  | depth, [] => newLine depth ++ ['}']
  | depth, (name, v) :: rest =>
    ',' :: (newLine (depth + 1) ++ writeString name ++ ':' :: ' ' ::
      (writePretty (depth + 1) v ++ writePrettyMembers depth rest))

end

/-- The text of a document on one line. -/
def compact (doc : Json) : String := String.ofList (writeCompact doc)

/-- The text of a document over several lines. -/
def pretty (doc : Json) : String := String.ofList (writePretty 0 doc)

end Json

end Highlight
