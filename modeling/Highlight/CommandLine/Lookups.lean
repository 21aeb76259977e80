import Highlight.CommandLine.Run
import Highlight.Compilation.Lookups

/-!
# What a command looks at

The paths a command reads, writes or removes something at. Where a command is to run on the files
of a computer, these are the ones it has to know.
-/

namespace Highlight.CommandLine

/-- The paths a command deals with, as far as the file system lets it get. -/
def Invocation.lookups (i : Invocation) (fs : FileSystem) : List Path :=
  let output := i.setup.outputDirectory
  match i.command with
  | .compile files =>
    output.ancestors ++ files.flatMap fun file =>
      Compilation.lookups fs i.setup file ++
        Compilation.destinations i.setup (Scheme.nameOf (Compilation.schemePath fs file))
  | .delete names => names.flatMap (Compilation.destinations i.setup)
  | .new path => path.ancestors
  | .list => [output]

end Highlight.CommandLine
