import Highlight.Path

/-!
# File systems

A file system says what stands at each location: a file with its bytes, a directory, or a link to
some path. A location is the list of names that lead to it, the innermost first, so that its
parent is the rest of the list. The root is always a directory. Relative paths start from `cwd`.
-/

namespace Highlight

/-- Why a file could not be read, written, made or removed. -/
inductive FileError where
  | notFound
  | alreadyExists
  | notADirectory
  | isADirectory
  /-- The bytes are no UTF-8 text. -/
  | notText
  /-- The path holds a character that no path may hold. -/
  | badPath
  /-- The path or one of its names is too long. -/
  | nameTooLong
  /-- Too many links lead to one another. -/
  | tooManyLinks
  /-- The device takes no more bytes. -/
  | storageFull
  deriving DecidableEq, Repr

/-- What an operating system tells about an error. -/
def FileError.message : FileError → String
  | notFound => "No such file or directory (os error 2)"
  | alreadyExists => "File exists (os error 17)"
  | notADirectory => "Not a directory (os error 20)"
  | isADirectory => "Is a directory (os error 21)"
  | notText => "stream did not contain valid UTF-8"
  | badPath => "file name contained an unexpected NUL byte"
  | nameTooLong => "File name too long (os error 36)"
  | tooManyLinks => "Too many levels of symbolic links (os error 40)"
  | storageFull => "No space left on device (os error 28)"

/-- A place in a file system: the names that lead to it, the innermost first. -/
abbrev Location := List RawText

/-- What stands at a location. -/
inductive Node where
  | file (content : ByteArray)
  | directory
  | link (target : Path)

/-- Files, directories and links, and the directory that relative paths start from. -/
structure FileSystem where
  nodes : List (Location × Node) := []
  cwd : Location := []

namespace FileSystem

/-- The first node listed for a location. -/
def find : List (Location × Node) → Location → Option Node
  | [], _ => none
  | (l, n) :: rest, location => if l = location then some n else find rest location

/-- What stands at a location; the root is a directory. -/
def node? (fs : FileSystem) (location : Location) : Option Node :=
  if location = [] then some .directory else find fs.nodes location

/-- The nodes with `node` at a location, in the old place if there was one. -/
def insert : List (Location × Node) → Location → Node → List (Location × Node)
  | [], location, node => [(location, node)]
  | (l, n) :: rest, location, node =>
    if l = location then (l, node) :: rest else (l, n) :: insert rest location node

/-- A node that is found is listed. -/
theorem mem_of_find {nodes : List (Location × Node)} {location : Location} {node : Node}
    (h : find nodes location = some node) : (location, node) ∈ nodes := by
  induction nodes with
  | nil => cases h
  | cons e rest ih =>
    rw [find] at h
    split at h
    · next hl =>
      cases hl
      cases h
      exact List.mem_cons_self
    · exact List.mem_cons_of_mem _ (ih h)

/-- What stands at a location is listed, unless it is a directory. -/
theorem mem_of_node? {fs : FileSystem} {location : Location} {node : Node}
    (h : fs.node? location = some node) (hd : node ≠ .directory) : (location, node) ∈ fs.nodes := by
  rw [node?] at h
  split at h
  · cases h
    exact absurd rfl hd
  · exact mem_of_find h

/-- Puts `node` at a location. -/
def set (fs : FileSystem) (location : Location) (node : Node) : FileSystem :=
  { fs with nodes := insert fs.nodes location node }

/-- Takes away what stands at a location. -/
def erase (fs : FileSystem) (location : Location) : FileSystem :=
  { fs with nodes := fs.nodes.filter (·.1 ≠ location) }

/-- The name of a location in a directory, if it is one. -/
def nameIn? (directory : Location) : Location → Option RawText
  | [] => none
  | name :: parent => if parent = directory then some name else none

/-- The names in a directory, each once. -/
def entries (fs : FileSystem) (directory : Location) : List RawText :=
  (fs.nodes.filterMap fun e => nameIn? directory e.1).eraseDups

/-- A location as an absolute path. -/
def pathOf (location : Location) : Path :=
  ⟨⟨Path.slash :: Path.joinSlashes (location.reverse.map (·.bytes))⟩⟩

end FileSystem

end Highlight
