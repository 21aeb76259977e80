import Highlight.Json.Route
import Highlight.Scheme.Load

/-!
# Syntax files

An editor needs three documents to highlight a scheme: a grammar, a theme and settings. Each kind
has an ending of its own; a name that has it already is a file name as it stands.
-/

namespace Highlight

/-- The three documents of a scheme. -/
structure SyntaxFiles where
  grammar : Json
  theme : Json
  settings : Json

namespace SyntaxFiles

/-- Which of the three documents. -/
inductive Kind where
  | grammar
  | theme
  | settings
  deriving DecidableEq, Repr

namespace Kind

/-- The kinds, in the order in which files are written. -/
def all : List Kind := [grammar, theme, settings]

/-- The ending of the files of a kind. -/
def ending : Kind → String
  | grammar => ".tmLanguage.json"
  | theme => ".tmTheme.json"
  | settings => ".sublime-settings"

/-- The word for a kind. -/
def label : Kind → String
  | grammar => "grammar"
  | theme => "theme"
  | settings => "settings"

/-- The file name of a document called `name`. -/
def fileName (kind : Kind) (name : String) : String :=
  if kind.ending.toList.isSuffixOf name.toList then name else name ++ kind.ending

/-- The file of a document called `name` in a directory. -/
def file (kind : Kind) (directory : Path) (name : String) : Path :=
  directory.join ⟨kind.fileName name⟩

end Kind

/-- The document of a kind. -/
def get (files : SyntaxFiles) : Kind → Json
  | .grammar => files.grammar
  | .theme => files.theme
  | .settings => files.settings

/-- Why syntax files were not made, read, written or removed. -/
inductive Error where
  /-- No document to extend was found under this name. -/
  | targetMissing (kind : Kind) (name : String)
  /-- A document to extend is none. -/
  | targetMalformed (path : Path) (cause : Json.Failure)
  /-- The extended document would be written over the one it extends. -/
  | targetOverwritten (kind : Kind) (path : Path)
  /-- The grammar has no place for the rules. -/
  | scopeMissing (missing : Json.Missing)
  /-- A file or directory could not be read, written or removed. -/
  | file (path : Path) (cause : FileError)
  deriving DecidableEq

/-- What is told about an error. -/
def Error.message (w : Wording) : Error → String
  | targetMissing kind name => kind.label ++ " document `" ++ name ++ "` not found for deriving"
  | targetMalformed path cause => path.text ++ " is not a valid document: " ++ w.json cause
  | targetOverwritten kind path =>
    "deriving would overwrite the " ++ kind.label ++ " document " ++ path.text
  | scopeMissing missing => "insertion scope missing: " ++ missing.message
  | file path cause => path.text ++ ": " ++ w.file cause

/-- The document in a file. -/
def documentAt (fs : FileSystem) (path : Path) : Except Error Json :=
  match fs.readText path with
  | .error cause => .error (.file path cause)
  | .ok text =>
    match Json.read text with
    | .error cause => .error (.targetMalformed path cause)
    | .ok doc => .ok doc

end SyntaxFiles

end Highlight
