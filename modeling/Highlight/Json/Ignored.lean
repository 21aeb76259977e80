import Highlight.Json.Reader

/-!
# Passing over what is not wanted

A member whose value nobody asks for is only checked for its form: it may nest without bound, its
numbers may be of any size, and its escapes need not pair up.
-/

namespace Highlight.Json

/-- A text up to its closing quote, which is taken off too. -/
def ignoreString : Reader Unit
  | [] => .error .cutShort
  | '"' :: rest => .ok ((), rest)
  | '\\' :: 'u' :: a :: b :: c :: d :: rest =>
    if (fourDigits? a b c d).isSome then ignoreString rest
    else .error (badDigits (a :: b :: c :: d :: rest))
  | '\\' :: 'u' :: rest => .error (badDigits rest)
  | ['\\'] => .error .cutShort
  | '\\' :: e :: rest => if (unescape? e).isSome then ignoreString rest else .error .illFormed
  | c :: rest => if c.toNat < 0x20 then .error .illFormed else ignoreString rest

/-- Decimal digits, one at least. -/
def ignoreDigits : Reader Unit := fun text =>
  match digits text with
  | ([], _) => .error .illFormed
  | (_, rest) => .ok ((), rest)

/-- The power of ten of a number, if there is one. -/
def ignoreExponent : Reader Unit := fun text =>
  match text with
  | c :: rest =>
    if c = 'e' ∨ c = 'E' then
      match rest with
      | '-' :: rest => ignoreDigits rest
      | '+' :: rest => ignoreDigits rest
      | rest => ignoreDigits rest
    else .ok ((), text)
  | [] => .ok ((), text)

/-- A number after its minus sign, if it has one. -/
def ignoreNumber : Reader Unit := fun text =>
  match digits text with
  | ([], _) => .error .illFormed
  | (0 :: _ :: _, _) => .error .illFormed
  | (_, '.' :: rest) => do
    let ((), rest) ← ignoreDigits rest
    ignoreExponent rest
  | (_, rest) => ignoreExponent rest

/-- A document with at most `depth` containers inside each other, of which only the form matters. -/
def ignoreValue : (depth : Nat) → Reader Unit
  | depth, text =>
    match skipBlank text with
    | [] => .error .cutShort
    | 'n' :: rest => do return ((), ← word rest ['u', 'l', 'l'])
    | 't' :: rest => do return ((), ← word rest ['r', 'u', 'e'])
    | 'f' :: rest => do return ((), ← word rest ['a', 'l', 's', 'e'])
    | '"' :: rest => ignoreString rest
    | '-' :: rest => ignoreNumber rest
    | '[' :: rest =>
      match depth with
      | 0 => .error .cutShort
      | depth + 1 => do
        let (_, rest) ← items (ignoreValue depth) rest
        return ((), rest)
    | '{' :: rest =>
      match depth with
      | 0 => .error .cutShort
      | depth + 1 => ignoreMembers (ignoreValue depth) rest
    | c :: rest => if c.isDigit then ignoreNumber (c :: rest) else .error .illFormed
where
  /-- The members of an object after its opening brace, and the closing one. -/
  ignoreMembers (value : Reader Unit) : Reader Unit := fun text =>
    match skipBlank text with
    | [] => .error .cutShort
    | '}' :: rest => .ok ((), rest)
    | '"' :: rest => ignoreMembersFrom value rest.length rest
    | _ => .error .illFormed
  /-- Members after an opening quote, up to the closing brace; at most `bound` of them. -/
  ignoreMembersFrom (value : Reader Unit) : (bound : Nat) → Reader Unit
    | 0, _ => .error .cutShort
    | bound + 1, text => do
      let ((), rest) ← ignoreString text
      let ((), rest) ← afterColon value rest
      match skipBlank rest with
      | [] => .error .cutShort
      | '}' :: rest => return ((), rest)
      | ',' :: rest =>
        match skipBlank rest with
        | [] => .error .cutShort
        | '"' :: rest => ignoreMembersFrom value bound rest
        | _ => .error .illFormed
      | _ => .error .illFormed

/-- A document of which only the form matters; no text nests deeper than it is long. -/
def ignored : Reader Unit := fun text => ignoreValue text.length text

end Highlight.Json
