import Highlight.SyntaxFiles.Generated

/-!
# Extended syntax files

A scheme may name a grammar, a theme and settings that it extends. The extended documents are
written under the scheme's own name. A grammar keeps its rules in `repository` under their
identifiers; the part of it that the scope path leads to refers to them. Rules that are added are
published under their identifier followed by the name of the scheme.

The documents are looked for next to the scheme and then in the output directory. All three must
be there, and none of them may be the file that would be written.
-/

namespace Highlight.SyntaxFiles

open Json (Missing)

/-- The scope that an added rule is published under. -/
def publishedScope (rule : Rule) (scheme : String) : String := rule.identifier ++ "." ++ scheme

/-- The reference to a rule kept in `repository`. -/
def reference (rule : Rule) : Json := .object [("include", .string ("#" ++ rule.identifier))]

/-- A rule as it is kept in `repository`. -/
def definition (scheme : String) (rule : Rule) : String × Json :=
  (rule.identifier,
    .object [("match", .string rule.pattern), ("name", .string (publishedScope rule scheme))])

/-- A document with a member set; one that is no object stays as it is. -/
def setMember (doc : Json) (name : String) (v : Json) : Json :=
  match doc with
  | .object members => .object (Table.put members name v)
  | doc => doc

/-- The members with the name of the scheme, which also qualifies the scope. -/
def rename (members : Table Json) (scheme : String) : Table Json :=
  let base := ((members.get? "scopeName").bind Json.string?).getD "source"
  (members.put "name" (.string scheme)).put "scopeName" (.string (base ++ "." ++ scheme))

/-- The path of the rule list at a scope. -/
def rulesPath (scope : String) : String :=
  if scope = "" then "patterns" else scope ++ ".patterns"

/-- A grammar with references appended to the rule list at `scope`. -/
def addReferences (grammar : Json) (scope : String) (references : List Json) :
    Except Missing Json := do
  let node ← grammar.follow scope
  match (node.member? "patterns").bind Json.array? with
  | none => .error ⟨"patterns", rulesPath scope⟩
  | some patterns =>
    grammar.modify scope fun node => setMember node "patterns" (.array (patterns ++ references))

/-- A grammar with definitions put into its `repository`. -/
def addDefinitions (grammar : Json) (definitions : Table Json) : Except Missing Json :=
  match grammar with
  | .object members =>
    match (Table.get? members "repository").getD (.object []) with
    | .object repository =>
      .ok (.object (Table.put members "repository" (.object (Table.putAll repository definitions))))
    | _ => .error ⟨"repository", "repository"⟩
  | _ => .error ⟨"repository", "repository"⟩

/-- A grammar extended by the rules of a scheme. -/
def extendGrammar (grammar : Json) (scheme scope : String) (rules : List Rule) :
    Except Missing Json := do
  match grammar with
  | .object members =>
    let grammar ← addReferences (.object (rename members scheme)) scope (rules.map reference)
    addDefinitions grammar (rules.map (definition scheme))
  | _ => .error ⟨"name", "name"⟩

/-- A theme extended by the rules of a scheme. What is no object is taken for an empty one. -/
def extendTheme (theme : Json) (scheme : String) (rules : List Rule) : Json :=
  let members := Table.put (theme.object?.getD []) "name" (.string scheme)
  let entries := ((members.get? "settings").bind Json.array?).getD []
  let added := rules.map fun rule => themeEntry rule (publishedScope rule scheme)
  .object (members.put "settings" (.array (entries ++ added)))

/-- Settings overlaid by those of a scheme, with its theme. -/
def extendSettings (settings : Json) (overlay : Table Json) (theme : String) : Json :=
  .object ((Table.putAll (settings.object?.getD []) overlay).put "color_scheme" (.string theme))

/-- The files of the three documents that are extended. -/
structure Targets where
  grammar : Path
  theme : Path
  settings : Path
  deriving DecidableEq

/-- The file of a kind. -/
def Targets.get (targets : Targets) : Kind → Path
  | .grammar => targets.grammar
  | .theme => targets.theme
  | .settings => targets.settings

/-- The first of the directories that has the document called `name`. -/
def target (fs : FileSystem) (directories : List Path) (kind : Kind) (name : String) :
    Except Error Path :=
  match (directories.map (kind.file · name)).find? fs.isFile with
  | some path => .ok path
  | none => .error (.targetMissing kind name)

/-- The files of the documents that a derivation names. -/
def Targets.find (fs : FileSystem) (directories : List Path) (d : Derivation) :
    Except Error Targets := do
  let grammar ← target fs directories .grammar d.grammar
  let theme ← target fs directories .theme d.theme
  let settings ← target fs directories .settings d.settings
  return { grammar, theme, settings }

/-- Whether two paths lead to the same file. -/
def coincide (fs : FileSystem) (p q : Path) : Bool :=
  p.components == q.components ||
    match fs.canonical p, fs.canonical q with
    | .ok l, .ok m => l == m
    | _, _ => false

/-- Fails if writing the scheme called `name` would replace one of the targets. -/
def Targets.check (targets : Targets) (fs : FileSystem) (outputDirectory : Path) (name : String) :
    Except Error Unit :=
  match Kind.all.find? fun kind =>
    coincide fs (targets.get kind) (kind.file outputDirectory name) with
  | some kind => .error (.targetOverwritten kind (kind.file outputDirectory name))
  | none => .ok ()

/-- The syntax files of a scheme that extends others. -/
def extending (fs : FileSystem) (scheme : Scheme) (d : Derivation) (rules : List Rule)
    (outputDirectory : Path) : Except Error SyntaxFiles := do
  let targets ← Targets.find fs [scheme.directory, outputDirectory] d
  targets.check fs outputDirectory scheme.name
  let grammar ← documentAt fs targets.grammar
  let theme ← documentAt fs targets.theme
  let settings ← documentAt fs targets.settings
  let grammar ← (extendGrammar grammar scheme.name d.scope rules).mapError .scopeMissing
  return {
    grammar
    theme := extendTheme theme scheme.name rules
    settings :=
      extendSettings settings scheme.settings (themePath outputDirectory scheme.name) }

/-- The syntax files of a scheme and its rules, new ones or extended ones as the scheme asks. -/
def build (fs : FileSystem) (scheme : Scheme) (rules : List Rule) (outputDirectory : Path)
    (base : Option BaseColours) (ids : Ids) : Except Error SyntaxFiles :=
  match scheme.derivation with
  | some d => extending fs scheme d rules outputDirectory
  | none => .ok (ofRules scheme rules outputDirectory base ids)

end Highlight.SyntaxFiles
