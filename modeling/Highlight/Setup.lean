import Highlight.Path

/-!
# Where things are

Syntax files go to an output directory and shared documents come from an include directory. What
is not given has a default: the output directory is in the user's data directory, and the include
directory in the output directory.
-/

namespace Highlight

/-- What the surroundings of a run tell. -/
structure Environment where
  /-- The user's own directory. -/
  home : Option Path := none
  /-- The directory for the user's data; it counts only if it is absolute. -/
  dataHome : Option Path := none
  /-- The output directory, where the command line gives none. -/
  outputDirectory : Option RawText := none
  /-- The include directory, where the command line gives none. -/
  includeDirectory : Option RawText := none

/-- The directory for the user's data, if there is one. -/
def Environment.dataDirectory? (env : Environment) : Option Path :=
  (env.dataHome.filter Path.isAbsolute).or (env.home.map (·.join ⟨".local/share"⟩))

/-- Where a run reads and writes. -/
structure Setup where
  outputDirectory : Path
  includeDirectory : Path
  /-- The theme whose base colours new themes take. -/
  baseTheme : Option Path
  deriving DecidableEq

/-- The output directory where none is given. -/
def Environment.defaultOutput (env : Environment) : Path :=
  match env.dataDirectory? with
  | some directory => directory.join ⟨"synesthesia"⟩
  | none => ⟨"synesthesia-out"⟩

/-- The setup with defaults for what is not given. -/
def Setup.complete (env : Environment) (output includes baseTheme : Option Path) : Setup :=
  let output := output.getD env.defaultOutput
  { outputDirectory := output
    includeDirectory := includes.getD (output.join ⟨"includes"⟩)
    baseTheme }

end Highlight
