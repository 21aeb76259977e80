import Highlight.Rule.Basic
import Highlight.SyntaxFiles.Basic

/-!
# New syntax files

A new grammar lists the patterns of all rules, each under the rule's identifier as its scope; the
theme gives each of these scopes its colours. The first entry of a theme has no scope: its colours
hold for everything else. The settings of a scheme come after those that are made for it and
replace them.
-/

namespace Highlight.SyntaxFiles

/-- The colours of a theme for everything that no rule colours. -/
abbrev BaseColours := Table Json

/-- Light letters on a dark ground. -/
def BaseColours.default : BaseColours :=
  [("background", .string "#272822"), ("caret", .string "#f8f8f0"),
   ("foreground", .string "#f8f8f2"), ("invisibles", .string "#3b3a32"),
   ("lineHighlight", .string "#3e3d32"), ("selection", .string "#49483e")]

/-- The base colours of a theme: the settings of its first entry that has no scope. -/
def BaseColours.ofTheme? (theme : Json) : Option BaseColours := do
  let entries ← (← theme.member? "settings").array?
  let entry ← entries.find? fun entry => (entry.member? "scope").isNone
  (← entry.member? "settings").object?

/-- The identifiers that tell documents apart. -/
structure Ids where
  grammar : String
  theme : String

/-- The scope of all text of a scheme. Editors complete words in sources, not in plain texts. -/
def outerScope (scheme : Scheme) : String :=
  (if scheme.autocompletion then "source." else "text.") ++ scheme.name

/-- How a theme draws what a rule matches. -/
def ruleLook (rule : Rule) : Json :=
  .object (((rule.foreground.map fun c => ("foreground", Json.string c.text)).toList
    ++ (rule.background.map fun c => ("background", Json.string c.text)).toList)
    ++ (rule.font.word?.map fun t => ("fontStyle", Json.string t)).toList)

/-- The path of the theme written for a scheme. -/
def themePath (outputDirectory : Path) (name : String) : String :=
  (Kind.theme.file outputDirectory name).text

/-- An array of texts. -/
def textArray (texts : List String) : Json := .array (texts.map .string)

/-- The pattern of a grammar for a rule. -/
def rulePattern (rule : Rule) : Json :=
  .object [("match", .string rule.pattern), ("name", .string rule.identifier)]

/-- A new grammar. -/
def newGrammar (scheme : Scheme) (rules : List Rule) (id : String) : Json :=
  .object [("name", .string scheme.name), ("scopeName", .string (outerScope scheme)),
    ("fileTypes", textArray scheme.extensions), ("patterns", .array (rules.map rulePattern)),
    ("uuid", .string id)]

/-- The entry of a theme that gives a scope the look of a rule. -/
def themeEntry (rule : Rule) (scope : String) : Json :=
  .object [("name", .string rule.identifier), ("scope", .string scope),
    ("settings", ruleLook rule)]

/-- A new theme. -/
def newTheme (scheme : Scheme) (rules : List Rule) (base : BaseColours) (id : String) : Json :=
  .object [("name", .string scheme.name),
    ("settings", .array (.object [("settings", .object base)]
      :: rules.map fun rule => themeEntry rule rule.identifier)),
    ("uuid", .string id)]

/-- New settings. -/
def newSettings (scheme : Scheme) (outputDirectory : Path) : Json :=
  .object (Table.putAll
    [("extensions", textArray scheme.extensions),
     ("color_scheme", .string (themePath outputDirectory scheme.name))]
    scheme.settings)

/-- New syntax files for a scheme and its rules. -/
def ofRules (scheme : Scheme) (rules : List Rule) (outputDirectory : Path)
    (base : Option BaseColours) (ids : Ids) : SyntaxFiles where
  grammar := newGrammar scheme rules ids.grammar
  theme := newTheme scheme rules (base.getD .default) ids.theme
  settings := newSettings scheme outputDirectory

end Highlight.SyntaxFiles
