import Highlight.CommandLine.Arguments
import Highlight.Compilation
import Highlight.Housekeeping

/-!
# Running a command

A command runs on a file system and leaves another one. It prints one line for each item, and goes
on with the next item after a failure; the exit code tells whether there was any.
-/

namespace Highlight.CommandLine

/-- What a run leaves. -/
structure Outcome where
  exitCode : UInt8
  /-- The lines that were printed. -/
  lines : List String
  fs : FileSystem

/-- The printed text: each line ends in a line feed. -/
def Outcome.text (o : Outcome) : String := String.join (o.lines.map (· ++ "\n"))

/-- The outcome of items that are dealt with one after the other. -/
structure Progress where
  failed : Bool := false
  lines : List String := []
  fs : FileSystem

/-- Prints a line, for a failure or not. -/
def Progress.tell (p : Progress) (failed : Bool) (line : String) (fs : FileSystem) : Progress :=
  ⟨p.failed || failed, p.lines ++ [line], fs⟩

/-- The outcome when all items are dealt with. -/
def Progress.outcome (p : Progress) : Outcome := ⟨if p.failed then 1 else 0, p.lines, p.fs⟩

/-- The words in which the command line tells causes. -/
def wording : Wording := .plain

/-- Compiles one file. -/
def compileOne (setup : Setup) (p : Progress) (file : Path) (fresh : Compilation.Fresh) :
    Progress :=
  match Compilation.compile p.fs setup fresh file with
  | (.ok done, fs) => p.tell false done.status fs
  | (.error failure, fs) => p.tell true (failure.status wording) fs

/-- Deletes the syntax files of one scheme. -/
def deleteScheme (setup : Setup) (p : Progress) (name : String) : Progress :=
  match Housekeeping.delete p.fs setup name with
  | (.ok status, fs) => p.tell false status fs
  | (.error e, fs) => p.tell true ("Could not delete " ++ name ++ ": " ++ e.message wording) fs

/-- Runs a command. `fresh` gives what is new in each compilation. -/
def Invocation.run (i : Invocation) (fresh : Nat → Compilation.Fresh) (fs : FileSystem) :
    Outcome :=
  match i.command with
  | .compile files =>
    (files.zipIdx.foldl (fun p e => compileOne i.setup p e.1 (fresh e.2)) { fs }).outcome
  | .delete names => (names.foldl (deleteScheme i.setup) { fs }).outcome
  | .new path =>
    -- here the device has room for all that is written
    match Housekeeping.begin fs path .whole with
    | (.ok status, fs) => ⟨0, [status], fs⟩
    | (.error e, fs) =>
      ⟨1, ["Could not create " ++ path.text ++ ": " ++ wording.file e], fs⟩
  | .list =>
    match Housekeeping.list fs i.setup with
    | .ok names => ⟨0, names, fs⟩
    | .error e => ⟨1, [e.message wording], fs⟩

/-- The version of the program. -/
def version : String := "synesthesia 0.1.0"

/-- How the program is used. -/
def usage : List String :=
  ["Compile keyword schemes into grammars, themes and settings",
   "",
   "Usage: synesthesia [OPTIONS] <COMMAND>",
   "",
   "Commands:",
   "  compile <FILES>...  Compile one or more scheme files",
   "  delete <NAMES>...   Remove the syntax files of one or more schemes",
   "  new <PATH>          Write a template scheme file",
   "  list                List compiled schemes",
   "",
   "Options:",
   "  --output-dir <DIR>   Where syntax files are written",
   "  --include-dir <DIR>  Where shared documents are looked for",
   "  --log-level <LEVEL>  Log level",
   "  --base-theme <FILE>  Theme whose base colours new themes take (compile)",
   "  -h, --help           Print help",
   "  -V, --version        Print version"]

/-- Runs the program with arguments. What cannot be used ends with exit code 2 and no output. -/
def run (env : Environment) (arguments : List RawText) (fresh : Nat → Compilation.Fresh)
    (fs : FileSystem) : Outcome :=
  match Invocation.ofArguments env arguments with
  | .ok i => i.run fresh fs
  | .error .version => ⟨0, [version], fs⟩
  | .error .help => ⟨0, usage, fs⟩
  | .error .misuse => ⟨2, [], fs⟩

end Highlight.CommandLine
