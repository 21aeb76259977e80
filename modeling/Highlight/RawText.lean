/-!
# Raw texts

A file name is any bytes but a slash and a zero, and a path any bytes but a zero; they need not be
UTF-8. A text names a file by its UTF-8 bytes. To be shown, raw bytes are read as UTF-8 again. What
is none stands out as the replacement character: once for each byte that no character begins with,
and once for each character that breaks off, whatever number of its bytes is there.
-/

namespace Highlight

/-- Bytes that need not be a text. -/
structure RawText where
  bytes : List UInt8
  deriving DecidableEq, Repr, Inhabited

namespace RawText

/-- The UTF-8 bytes of a text. -/
def ofText (s : String) : RawText := ⟨s.toList.flatMap String.utf8EncodeChar⟩

instance : Coe String RawText := ⟨ofText⟩

instance : Append RawText := ⟨fun t u => ⟨t.bytes ++ u.bytes⟩⟩

/-- A character of which the first bytes were read. -/
structure Begun where
  /-- How many bytes are to come after the next one. -/
  owed : Nat
  /-- The least that the next byte may be. -/
  low : Nat
  /-- The greatest that the next byte may be. -/
  high : Nat
  /-- The number that the bits so far make. -/
  code : Nat

/-- What comes of one more byte. -/
inductive Progress where
  | char (c : Char)
  | more (b : Begun)
  | refused

/-- What a byte begins. -/
def first (b : Nat) : Progress :=
  if b < 0x80 then .char (Char.ofNat b)
  else if b < 0xC2 then .refused
  else if b < 0xE0 then .more ⟨0, 0x80, 0xBF, b % 0x20⟩
  else if b < 0xF0 then
    .more ⟨1, if b = 0xE0 then 0xA0 else 0x80, if b = 0xED then 0x9F else 0xBF, b % 0x10⟩
  else if b < 0xF5 then
    .more ⟨2, if b = 0xF0 then 0x90 else 0x80, if b = 0xF4 then 0x8F else 0xBF, b % 0x08⟩
  else .refused

/-- What a byte adds to a character. -/
def Begun.next (s : Begun) (b : Nat) : Progress :=
  if s.low ≤ b ∧ b ≤ s.high then
    let code := 0x40 * s.code + b % 0x40
    match s.owed with
    | 0 => .char (Char.ofNat code)
    | owed + 1 => .more ⟨owed, 0x80, 0xBF, code⟩
  else .refused

/-- What stands for bytes that are no character. -/
def replacement : Char := '\uFFFD'

/-- Reads bytes between two characters, or after the first bytes of one. -/
def decode : Option Begun → List UInt8 → List Char
  | none, [] => []
  | some _, [] => [replacement]
  | none, b :: rest =>
    match first b.toNat with
    | .char c => c :: decode none rest
    | .more s => decode (some s) rest
    | .refused => replacement :: decode none rest
  | some s, b :: rest =>
    match s.next b.toNat with
    | .char c => c :: decode none rest
    | .more s => decode (some s) rest
    | .refused =>
      -- the character breaks off, and the byte is read as the first one of another
      match first b.toNat with
      | .char c => replacement :: c :: decode none rest
      | .more s => replacement :: decode (some s) rest
      | .refused => replacement :: replacement :: decode none rest

/-- The text that is shown for bytes. -/
def text (t : RawText) : String := String.ofList (decode none t.bytes)

/-- The text that bytes are the UTF-8 form of, if they are. -/
def text? (t : RawText) : Option String := if ofText t.text = t then some t.text else none

end RawText

end Highlight
