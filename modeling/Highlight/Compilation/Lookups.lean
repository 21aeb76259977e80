import Highlight.Compilation

/-!
# What a compilation looks at

The paths at which a compilation reads, and those at which it may write. The outcome depends on a
file system only by what these paths lead to.
-/

namespace Highlight.Compilation

/-- The paths that are tried where the first file among them is looked for. -/
def tried (fs : FileSystem) : List Path → List Path
  | [] => []
  | p :: ps => if fs.isFile p then [p] else p :: tried fs ps

/-- The paths tried for the documents a scheme includes. -/
def includeLookups (fs : FileSystem) (setup : Setup) (scheme : Scheme) : List Path :=
  let directories := [scheme.directory, setup.includeDirectory]
  let names := (scheme.source.withIncludes (fs.loader directories) scheme.name).loads
  names.flatMap fun name => tried fs (directories.map (Scheme.includeFile · name))

/-- The paths tried for the document called `name`, and then `rest` if there is one. -/
def targetLookupsFrom (fs : FileSystem) (directories : List Path) (kind : SyntaxFiles.Kind)
    (name : String) (rest : List Path) : List Path :=
  let paths := directories.map (kind.file · name)
  tried fs paths ++ if paths.any fs.isFile then rest else []

/-- The paths tried for the documents a derivation extends. -/
def targetLookups (fs : FileSystem) (setup : Setup) (scheme : Scheme) (d : Derivation) :
    List Path :=
  let lookups := targetLookupsFrom fs [scheme.directory, setup.outputDirectory]
  lookups .grammar d.grammar (lookups .theme d.theme (lookups .settings d.settings []))

/-- The files that a scheme is compiled to. -/
def destinations (setup : Setup) (name : String) : List Path :=
  SyntaxFiles.Kind.all.map (·.file setup.outputDirectory name)

/-- The paths a compilation reads at, as far as the file system lets it get. -/
def lookups (fs : FileSystem) (setup : Setup) (path : Path) : List Path :=
  let path := schemePath fs path
  path :: match Scheme.load fs path with
    | .error _ => []
    | .ok scheme =>
      includeLookups fs setup scheme ++
        match scheme.derivation with
        | some d => targetLookups fs setup scheme d
        | none => setup.baseTheme.toList

end Highlight.Compilation
