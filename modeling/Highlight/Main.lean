import Highlight.CommandLine.Lookups

/-!
# The program

A command runs on a file system in memory. What it may look at is taken there from the disk
first, and what it changed is carried out on the disk afterwards. What cannot be read counts as
missing, and so does a link that leads nowhere.
-/

namespace Highlight

/-- What stands at a location on the disk. -/
def nodeOnDisk? (location : Location) : IO (Option Node) := do
  let text := (FileSystem.pathOf location).text
  try
    let real ← IO.FS.realPath ⟨text⟩
    if real.toString ≠ text then return some (.link ⟨real.toString⟩)
    else if ← real.isDir then return some .directory
    else return some (.file (← IO.FS.readBinFile real))
  catch _ => return none

/-- Takes everything on the way along steps from a directory. -/
partial def takeSteps (fs : FileSystem) (directory : Location) : List Step → IO FileSystem
  | [] => return fs
  | .here :: rest => takeSteps fs directory rest
  | .up :: rest => takeSteps fs directory.tail rest
  | .into name :: rest => do
    let location := name :: directory
    match ← nodeOnDisk? location with
    | none => return fs
    | some (.link target) => takeSteps (fs.set location (.link target)) [] (target.steps ++ rest)
    | some node => takeSteps (fs.set location node) location rest

/-- Takes everything on the way along a path. -/
def takePath (fs : FileSystem) (p : Path) : IO FileSystem :=
  takeSteps fs (if p.isAbsolute then [] else fs.cwd) p.steps

/-- Takes the entries of a directory, if a path leads to one. -/
def takeEntries (fs : FileSystem) (p : Path) : IO FileSystem := do
  match fs.locate p with
  | .ok (location, .directory) =>
    let directory ← IO.FS.realPath ⟨(FileSystem.pathOf location).text⟩
    (← directory.readDir).foldlM (fun fs e => takeSteps fs location [.into e.fileName]) fs
  | _ => return fs

/-- Takes everything a command may look at. -/
partial def takeLookups (i : CommandLine.Invocation) (fs : FileSystem) (taken : List Path) :
    IO FileSystem := do
  match (i.lookups fs).filter (· ∉ taken) with
  | [] => return fs
  | paths => takeLookups i (← paths.foldlM takePath fs) (taken ++ paths)

/-- Whether two nodes are the same. -/
def sameNode : Node → Node → Bool
  | .file a, .file b => a.data == b.data
  | .directory, .directory => true
  | .link p, .link q => p == q
  | _, _ => false

/-- Makes the disk agree with a file system that was changed. -/
def carryOut (before after : FileSystem) : IO Unit := do
  for (location, node) in after.nodes do
    if !(before.node? location).any (sameNode node) then
      let text := (FileSystem.pathOf location).text
      match node with
      | .file content => IO.FS.writeBinFile ⟨text⟩ content
      | .directory => IO.FS.createDirAll ⟨text⟩
      | .link _ => pure ()
  for (location, _) in before.nodes do
    if (after.node? location).isNone then
      IO.FS.removeFile ⟨(FileSystem.pathOf location).text⟩

/-- The surroundings of this run. -/
def readEnvironment : IO Environment := do
  return {
    home := (← IO.getEnv "HOME").map (⟨·⟩)
    dataHome := (← IO.getEnv "XDG_DATA_HOME").map (⟨·⟩)
    outputDirectory := (← IO.getEnv "SYNESTHESIA_OUTPUT_DIR").map (↑·)
    includeDirectory := (← IO.getEnv "SYNESTHESIA_INCLUDE_DIR").map (↑·) }

/-- The file system as far as a command needs it. -/
def takeFor (i : CommandLine.Invocation) : IO FileSystem := do
  let current : Path := ⟨(← IO.FS.realPath (← IO.currentDir)).toString⟩
  let names := current.steps.filterMap fun
    | .into name => some name
    | _ => none
  let fs ← takeLookups i { cwd := names.reverse } []
  if i.command = .list then takeEntries fs i.setup.outputDirectory else return fs

end Highlight

/-- Runs the command line on the disk. -/
def main (arguments : List String) : IO UInt32 := do
  let env ← Highlight.readEnvironment
  let arguments := arguments.map Highlight.RawText.ofText
  let seed ← IO.getRandomBytes 16
  let fresh (i : Nat) : Highlight.Compilation.Fresh :=
    .ofSeed (Highlight.Sha1.lengthBytes (UInt64.ofNat i) ++ seed.toList)
  let before ← match Highlight.CommandLine.Invocation.ofArguments env arguments with
    | .ok i => Highlight.takeFor i
    | .error _ => pure {}
  let outcome := Highlight.CommandLine.run env arguments fresh before
  Highlight.carryOut before outcome.fs
  IO.print outcome.text
  return outcome.exitCode.toUInt32
