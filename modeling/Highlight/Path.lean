import Highlight.RawText

/-!
# Paths

A path is a raw text. Slashes separate its pieces; empty pieces and single dots among them do not
matter for what it names, except for a dot in front of a relative path and for a slash at the end.
A path keeps the bytes it was given: joining and cutting off its last piece leave the rest alone.
-/

namespace Highlight

/-- The place of a file, relative or absolute. It need not be a text. -/
structure Path where
  raw : RawText
  deriving DecidableEq, Repr, Inhabited

/-- One step on the way along a path. -/
inductive Step where
  /-- Stay: a single dot. -/
  | here
  /-- To the parent directory: two dots. -/
  | up
  /-- Into the entry of this name. -/
  | into (name : RawText)
  deriving DecidableEq, Repr

namespace Path

/-- The byte of a slash. -/
abbrev slash : UInt8 := 0x2F

/-- The byte of a dot. -/
abbrev dot : UInt8 := 0x2E

/-- The text that is shown for a path; if it is no text, it cannot be told from it. -/
def text (p : Path) : String := p.raw.text

/-- The bytes of a path. -/
def bytes (p : Path) : List UInt8 := p.raw.bytes

/-- The bytes between the slashes. -/
def splitSlashes : List UInt8 → List (List UInt8)
  | [] => [[]]
  | b :: rest =>
    if b = slash then [] :: splitSlashes rest
    else
      match splitSlashes rest with
      | [] => [[b]]
      | piece :: pieces => (b :: piece) :: pieces

/-- The pieces with slashes between them. -/
def joinSlashes : List (List UInt8) → List UInt8
  | [] => []
  | [piece] => piece
  | piece :: pieces => piece ++ slash :: joinSlashes pieces

/-- A path taken apart: the root or a dot in front, and the pieces after it. -/
structure Parts where
  front : List UInt8
  pieces : List (List UInt8)

/-- Takes a path apart. -/
def parts (p : Path) : Parts :=
  match p.bytes with
  | 0x2F :: rest => ⟨[slash], splitSlashes rest⟩
  | [0x2E] => ⟨[dot], []⟩
  | 0x2E :: 0x2F :: rest => ⟨[dot], splitSlashes (slash :: rest)⟩
  | bytes => ⟨[], splitSlashes bytes⟩

/-- Whether a piece names nothing: it is empty or a dot. -/
def isVoid (piece : List UInt8) : Bool := piece == [] || piece == [dot]

/-- The pieces up to the last one that names something. -/
def trimVoid (pieces : List (List UInt8)) : List (List UInt8) :=
  (pieces.reverse.dropWhile isVoid).reverse

/-- Whether a path starts from the root. -/
def isAbsolute (p : Path) : Bool := p.parts.front == [slash]

/-- The path `q` seen from `p`: `q` itself if it is absolute, else one after the other. -/
def join (p q : Path) : Path :=
  if q.isAbsolute then q
  else if p.bytes = [] ∨ p.bytes.getLast? = some slash then ⟨p.raw ++ q.raw⟩
  else ⟨p.raw ++ "/" ++ q.raw⟩

/-- A path without its last piece; none if there is nothing to cut off. -/
def parent? (p : Path) : Option Path :=
  let parts := p.parts
  match trimVoid parts.pieces with
  | [] => if parts.front = [dot] then some ⟨""⟩ else none
  | pieces => some ⟨⟨parts.front ++ joinSlashes (trimVoid pieces.dropLast)⟩⟩

/-- The last piece of a path that names something, unless it leads up. -/
def fileName? (p : Path) : Option RawText :=
  match (trimVoid p.parts.pieces).getLast? with
  | some piece => if piece = [dot, dot] then none else some ⟨piece⟩
  | none => none

/-- What names something in a path, in order. -/
def components (p : Path) : List UInt8 × List (List UInt8) :=
  (p.parts.front, p.parts.pieces.filter (!isVoid ·))

/-- Whether a path has a piece at all and ends in a slash. -/
def endsInSlash (p : Path) : Bool := p.bytes.getLast? == some slash

/--
A path made absolute from the directory `cwd`, without looking at any file: empty pieces and dots
go, leading up stays, and so does a slash at the end. The empty path stays as it is, and so does a
start with exactly two slashes.
-/
def absolute (p cwd : Path) : Path :=
  if p.bytes = [] then p
  else
    let pieces := p.components.2
    let front : Path :=
      match p.bytes with
      | 0x2F :: 0x2F :: 0x2F :: _ => ⟨"/"⟩
      | 0x2F :: 0x2F :: _ => ⟨"//"⟩
      | 0x2F :: _ => ⟨"/"⟩
      | _ => cwd
    let whole := pieces.foldl (fun q piece => q.join ⟨⟨piece⟩⟩) front
    if p.endsInSlash then whole.join ⟨""⟩ else whole

/-- The steps a path prescribes. -/
def steps (p : Path) : List Step :=
  ((splitSlashes p.bytes).filter (· ≠ [])).map fun piece =>
    if piece = [dot] then .here
    else if piece = [dot, dot] then .up
    else .into ⟨piece⟩

/-- The path itself and what is left as its last pieces are cut off, down to the first piece. -/
def ancestors (p : Path) : List Path := go p.bytes.length p
where
  /-- At most `bound` paths. -/
  go : (bound : Nat) → Path → List Path
    | 0, _ => []
    | bound + 1, p =>
      match p.parent? with
      | some q => p :: go bound q
      | none => []

end Path

end Highlight
