import Highlight.FileSystem.Resolve

/-!
# Reading and changing files

What the operations of an operating system do to a file system. An operation that fails leaves the
file system as it was, but for two of them: `makeDirectories` keeps the directories it had made by
then, and `fill` the bytes it had written. `write` is let through or not; it does not break off.
-/

namespace Highlight.FileSystem

/-- The location a path leads to, every link followed, and what stands there. -/
def locate (fs : FileSystem) (p : Path) : Except FileError (Location × Node) :=
  match fs.spot ⟨true, false⟩ p with
  | .error e => .error e
  | .ok (.free ..) => .error .notFound
  | .ok (.taken location slash) =>
    match fs.node? location with
    | none => .error .notFound
    | some (.file content) =>
      if slash then .error .notADirectory else .ok (location, .file content)
    | some node => .ok (location, node)

/-- What is located stands there. -/
theorem node?_of_locate {fs : FileSystem} {p : Path} {location : Location} {node : Node}
    (h : fs.locate p = .ok (location, node)) : fs.node? location = some node := by
  rw [locate] at h
  split at h
  · cases h
  · cases h
  · split at h
    · cases h
    · next hn =>
      split at h
      · cases h
      · cases h
        exact hn
    · next hn =>
      cases h
      exact hn

/-- The location a path leads to, every link followed. -/
def canonical (fs : FileSystem) (p : Path) : Except FileError Location :=
  (fs.locate p).map Prod.fst

/-- Whether a path leads to a file. -/
def isFile (fs : FileSystem) (p : Path) : Bool :=
  match fs.locate p with
  | .ok (_, .file _) => true
  | _ => false

/-- Whether a path leads to a directory. -/
def isDirectory (fs : FileSystem) (p : Path) : Bool :=
  match fs.locate p with
  | .ok (_, .directory) => true
  | _ => false

/-- The bytes of a file. -/
def read (fs : FileSystem) (p : Path) : Except FileError ByteArray :=
  match fs.locate p with
  | .error e => .error e
  | .ok (_, .file content) => .ok content
  | .ok _ => .error .isADirectory

/-- What is read stands in some file. -/
theorem exists_of_read {fs : FileSystem} {p : Path} {content : ByteArray}
    (h : fs.read p = .ok content) : ∃ location, (location, .file content) ∈ fs.nodes := by
  rw [read] at h
  split at h
  · cases h
  · next location _ hl =>
    cases h
    exact ⟨location, mem_of_node? (node?_of_locate hl) (fun hd => by cases hd)⟩
  · cases h

/-- The text of a file. -/
def readText (fs : FileSystem) (p : Path) : Except FileError String :=
  match fs.read p with
  | .error e => .error e
  | .ok content =>
    match String.fromUTF8? content with
    | some text => .ok text
    | none => .error .notText

/-- The names in a directory. -/
def list (fs : FileSystem) (p : Path) : Except FileError (List RawText) :=
  match fs.locate p with
  | .error e => .error e
  | .ok (location, .directory) => .ok (fs.entries location)
  | .ok _ => .error .notADirectory

/-- Writes a file, a new one or in place of the old bytes. A link is followed to what it names. -/
def write (fs : FileSystem) (p : Path) (content : ByteArray) : Except FileError FileSystem :=
  match fs.spot ⟨true, true⟩ p with
  | .error e => .error e
  | .ok (.free directory name _) => .ok (fs.set (name :: directory) (.file content))
  | .ok (.taken location _) =>
    match fs.node? location with
    | some (.file _) => .ok (fs.set location (.file content))
    | _ => .error .isADirectory

/-- Makes a new file with no bytes; nothing may stand there yet, not even a link. -/
def createNew (fs : FileSystem) (p : Path) : Except FileError (Location × FileSystem) :=
  match fs.spot ⟨false, true⟩ p with
  | .error e => .error e
  | .ok (.free directory name _) =>
    .ok (name :: directory, fs.set (name :: directory) (.file .empty))
  | .ok (.taken ..) => .error .alreadyExists

/-- How it ends when bytes are written to an open file. -/
inductive Writing where
  /-- All of them are written. -/
  | whole
  /-- After the first `count` of them it breaks off, as on a full device. -/
  | broken (count : Nat) (error : FileError)

/-- The bytes that are written. -/
def Writing.written (content : ByteArray) : Writing → ByteArray
  | .whole => content
  | .broken count _ => content.extract 0 count

/-- What is told about it. -/
def Writing.outcome : Writing → Except FileError Unit
  | .whole => .ok ()
  | .broken _ error => .error error

/-- Writes bytes into an open file that has none. -/
def fill (fs : FileSystem) (location : Location) (content : ByteArray) (writing : Writing) :
    Except FileError Unit × FileSystem :=
  (writing.outcome, fs.set location (.file (writing.written content)))

/-- Makes a directory whose parent exists. -/
def makeDirectory (fs : FileSystem) (p : Path) : Except FileError FileSystem :=
  match fs.spot ⟨false, false⟩ p with
  | .error e => .error e
  | .ok (.free directory name _) => .ok (fs.set (name :: directory) .directory)
  | .ok (.taken ..) => .error .alreadyExists

/-- Puts a link to `target` at a path where nothing stands yet and no slash at the end. -/
def makeLink (fs : FileSystem) (target p : Path) : Except FileError FileSystem :=
  match fault? target with
  | some e => .error e
  | none =>
    match fs.spot ⟨false, false⟩ p with
    | .error e => .error e
    | .ok (.free directory name slash) =>
      if slash then .error .notFound else .ok (fs.set (name :: directory) (.link target))
    | .ok (.taken ..) => .error .alreadyExists

/-- Makes the first of the paths, each the parent of the one before it, and those it needs. -/
def makeChain (fs : FileSystem) : List Path → Except FileError Unit × FileSystem
  | [] => (.ok (), fs)
  | p :: parents =>
    match fs.makeDirectory p with
    | .ok fs => (.ok (), fs)
    | .error .notFound =>
      match makeChain fs parents with
      | (.error e, fs) => (.error e, fs)
      | (.ok (), fs) =>
        match fs.makeDirectory p with
        | .ok fs => (.ok (), fs)
        | .error e =>
          if e = .alreadyExists ∧ fs.isDirectory p then (.ok (), fs) else (.error e, fs)
    | .error e => if e = .alreadyExists ∧ fs.isDirectory p then (.ok (), fs) else (.error e, fs)

/-- Makes a directory and those of its parents that are missing. -/
def makeDirectories (fs : FileSystem) (p : Path) : Except FileError Unit × FileSystem :=
  fs.makeChain p.ancestors

/-- Removes a file or a link. -/
def remove (fs : FileSystem) (p : Path) : Except FileError FileSystem :=
  match fs.spot ⟨false, false⟩ p with
  | .error e => .error e
  | .ok (.free ..) => .error .notFound
  | .ok (.taken location slash) =>
    match fs.node? location with
    | some .directory => .error .isADirectory
    | _ => if slash then .error .notADirectory else .ok (fs.erase location)

end Highlight.FileSystem
