import Highlight.Json.Basic

/-!
# Routes through a document

A dotted path such as `repository.main.patterns` leads from the root of a document to one of its
parts: each segment is the name of a member or, in an array, an index. Empty segments do not
count, so the empty path stays at the root. `follow` finds the part and `modify` changes it; both
fail at the first segment that cannot be followed.
-/

namespace Highlight.Json

/-- The texts between the dots. -/
def splitDots : List Char → List (List Char)
  | [] => [[]]
  | c :: rest =>
    if c = '.' then [] :: splitDots rest
    else
      match splitDots rest with
      | [] => [[c]]
      | piece :: pieces => (c :: piece) :: pieces

/-- The segments of a dotted path. -/
def route (path : String) : List String :=
  ((splitDots path.toList).filter (· ≠ [])).map String.ofList

/-- The value of decimal digits, if there are any and nothing else. -/
def decimal? (text : List Char) : Option Nat :=
  if text ≠ [] ∧ text.all Char.isDigit then
    some (text.foldl (fun n c => 10 * n + (c.toNat - '0'.toNat)) 0)
  else none

/-- An index: decimal digits, perhaps after a plus sign, below `2 ^ 64`. -/
def index? (segment : String) : Option Nat :=
  (decimal? (match segment.toList with | '+' :: ds => ds | ds => ds)).filter (· < UInt64.size)

/-- The part of a document that one segment leads to. -/
def child? (doc : Json) (segment : String) : Option Json :=
  match doc with
  | object members => Table.get? members segment
  | array items => (index? segment).bind (items[·]?)
  | _ => none

/-- Puts `part` where one segment leads to. -/
def setChild (doc : Json) (segment : String) (part : Json) : Json :=
  match doc with
  | object members => object (Table.put members segment part)
  | array items =>
    match index? segment with
    | some i => array (items.set i part)
    | none => doc
  | _ => doc

/-- A segment that could not be followed, and the path it is part of. -/
structure Missing where
  segment : String
  path : String
  deriving DecidableEq, Repr

/-- What is told about a missing segment. -/
def Missing.message (m : Missing) : String :=
  "`" ++ m.segment ++ "` not found (path `" ++ m.path ++ "`)"

/-- The part that segments lead to, or the first one that cannot be followed. -/
def walk (doc : Json) : List String → Except String Json
  | [] => .ok doc
  | segment :: rest =>
    match child? doc segment with
    | some part => walk part rest
    | none => .error segment

/-- The document with the part that segments lead to changed by `f`. -/
def walkModify (f : Json → Json) (doc : Json) : List String → Except String Json
  | [] => .ok (f doc)
  | segment :: rest =>
    match child? doc segment with
    | some part => (walkModify f part rest).map (setChild doc segment)
    | none => .error segment

/-- The part of a document that a path leads to. -/
def follow (doc : Json) (path : String) : Except Missing Json :=
  (walk doc (route path)).mapError (⟨·, path⟩)

/-- The document with the part that a path leads to changed by `f`. -/
def modify (doc : Json) (path : String) (f : Json → Json) : Except Missing Json :=
  (walkModify f doc (route path)).mapError (⟨·, path⟩)

end Highlight.Json
