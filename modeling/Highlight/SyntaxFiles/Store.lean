import Highlight.Json.Printer
import Highlight.SyntaxFiles.Basic

/-!
# Syntax files on disk

The three documents of a scheme are written to the output directory one after the other, each
replacing the file that was there. A scheme counts as compiled when its grammar is there.
-/

namespace Highlight.SyntaxFiles

/-- The bytes of a document's file. -/
def fileContent (doc : Json) : ByteArray := (doc.pretty ++ "\n").toUTF8

/-- Writes the documents of the given kinds. Returns their files, in order. -/
def writeKinds (files : SyntaxFiles) (directory : Path) (name : String) :
    List Kind → FileSystem → Except Error (List Path) × FileSystem
  | [], fs => (.ok [], fs)
  | kind :: kinds, fs =>
    let path := kind.file directory name
    match fs.write path (fileContent (files.get kind)) with
    | .error e => (.error (.file path e), fs)
    | .ok fs =>
      match writeKinds files directory name kinds fs with
      | (.error e, fs) => (.error e, fs)
      | (.ok paths, fs) => (.ok (path :: paths), fs)

/-- Writes all three documents into a directory, which is made if need be. -/
def store (files : SyntaxFiles) (fs : FileSystem) (directory : Path) (name : String) :
    Except Error (List Path) × FileSystem :=
  match fs.makeDirectories directory with
  | (.error e, fs) => (.error (.file directory e), fs)
  | (.ok (), fs) => writeKinds files directory name Kind.all fs

/-- Removes the documents of the given kinds, as far as they are there. Returns their files. -/
def removeKinds (directory : Path) (name : String) :
    List Kind → FileSystem → Except Error (List Path) × FileSystem
  | [], fs => (.ok [], fs)
  | kind :: kinds, fs =>
    let path := kind.file directory name
    match fs.remove path with
    | .error .notFound => removeKinds directory name kinds fs
    | .error e => (.error (.file path e), fs)
    | .ok fs =>
      match removeKinds directory name kinds fs with
      | (.error e, fs) => (.error e, fs)
      | (.ok paths, fs) => (.ok (path :: paths), fs)

/-- Removes all documents of a scheme. Returns the files that were there. -/
def discard (fs : FileSystem) (directory : Path) (name : String) :
    Except Error (List Path) × FileSystem :=
  removeKinds directory name Kind.all fs

/-- The name before an ending. -/
def withoutEnding? (ending name : String) : Option String :=
  if ending.toList.isSuffixOf name.toList then
    some (String.ofList (name.toList.take (name.toList.length - ending.toList.length)))
  else none

/-- The name of the scheme that an entry of a directory is the grammar of, if it is one. -/
def schemeOf? (entry : RawText) : Option String :=
  entry.text?.bind (withoutEnding? Kind.grammar.ending)

/-- The names of the schemes whose grammars are in a directory, sorted; none if it is missing. -/
def compiled (fs : FileSystem) (directory : Path) : Except Error (List String) :=
  match fs.list directory with
  | .error .notFound => .ok []
  | .error e => .error (.file directory e)
  | .ok entries => .ok ((entries.filterMap schemeOf?).mergeSort (· ≤ ·))

end Highlight.SyntaxFiles
