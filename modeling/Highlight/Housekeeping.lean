import Highlight.Setup
import Highlight.SyntaxFiles.Store

/-!
# Beginning and ending a scheme

A new scheme file is written from a template, never over anything. Deleting a scheme removes its
syntax files from the output directory, not the scheme file.
-/

namespace Highlight.Housekeeping

/-- The scheme file to begin with. -/
def template : String :=
  String.intercalate "\n"
    ["\x7b",
     "    \"keywords\": \x7b",
     "        \"TODO\": \x7b \"colour\": \"auto\", \"bold\": true \x7d,",
     "        \"FIXME\": \"red\"",
     "    \x7d,",
     "    \"include\": [],",
     "    \"extensions\": [],",
     "    \"autocompletion\": false,",
     "    \"settings\": \x7b\x7d",
     "\x7d",
     ""]

/-- Removes the syntax files of a scheme and tells about it. -/
def delete (fs : FileSystem) (setup : Setup) (name : String) :
    Except SyntaxFiles.Error String × FileSystem :=
  match SyntaxFiles.discard fs setup.outputDirectory name with
  | (.error e, fs) => (.error e, fs)
  | (.ok [], fs) => (.ok ("Highlighting scheme " ++ name ++ " not found."), fs)
  | (.ok (_ :: _), fs) => (.ok ("Highlighting scheme " ++ name ++ " removed."), fs)

/-- Makes the directory of a path, unless that is the current one. -/
def makeParent (fs : FileSystem) (path : Path) : Except FileError Unit × FileSystem :=
  match path.parent? with
  | some parent => fs.makeDirectories parent
  | none => (.ok (), fs)

/--
Makes a file with the template at a path where nothing stands yet, and tells about it. The file is
not taken back if the writing breaks off.
-/
def begin (fs : FileSystem) (path : Path) (writing : FileSystem.Writing) :
    Except FileError String × FileSystem :=
  match makeParent fs path with
  | (.error e, fs) => (.error e, fs)
  | (.ok (), fs) =>
    match fs.createNew path with
    | .error e => (.error e, fs)
    | .ok (location, fs) =>
      match fs.fill location template.toUTF8 writing with
      | (.error e, fs) => (.error e, fs)
      | (.ok (), fs) => (.ok ("New scheme written to " ++ path.text ++ "."), fs)

/-- The names of the compiled schemes. -/
def list (fs : FileSystem) (setup : Setup) : Except SyntaxFiles.Error (List String) :=
  SyntaxFiles.compiled fs setup.outputDirectory

end Highlight.Housekeeping
