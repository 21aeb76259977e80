import Highlight.Json.Basic
import Highlight.Text.Blank
import Highlight.Text.Case

/-!
# What a keyword should look like

A keyword's style is either a bare colour or an object of single fields. It is read leniently: a
field of the wrong type counts as absent, and a value that is neither a text nor an object is a
style without any field. So no keyword is ever lost to its style.
-/

namespace Highlight

/-- A colour as it is written in a scheme. -/
inductive ColourChoice where
  /-- The colour that a digest of the keyword gives. -/
  | auto
  /-- A new random colour each time. -/
  | random
  /-- A colour name or hexadecimal digits. -/
  | literal (text : String)
  deriving DecidableEq, Repr

/-- Reads a colour. White space round it and the case of the two special words do not matter. -/
def ColourChoice.parse (text : String) : ColourChoice :=
  let text := Text.trim text
  if Text.isWord text "auto" then .auto
  else if Text.isWord text "random" then .random
  else .literal text

/-- How letters are drawn. -/
structure FontStyle where
  bold : Bool := false
  italic : Bool := false
  deriving DecidableEq, Repr

/-- The word for a font style in a theme; none for the plain one. -/
def FontStyle.word? : FontStyle → Option String
  | ⟨false, false⟩ => none
  | ⟨true, false⟩ => some "bold"
  | ⟨false, true⟩ => some "italic"
  | ⟨true, true⟩ => some "bold italic"

/-- The single fields of a style. -/
structure StyleFields where
  foreground : Option ColourChoice := none
  background : Option ColourChoice := none
  font : FontStyle := {}
  wholeWord : Bool := false
  caseInsensitive : Bool := false
  deriving DecidableEq, Repr

/-- The style of a keyword. -/
inductive Style where
  /-- A bare colour for the letters. -/
  | colour (choice : ColourChoice)
  /-- Single fields. -/
  | full (fields : StyleFields)
  deriving DecidableEq, Repr

namespace Style

/-- The first of the named members that is a text, as a colour. -/
def colour? (members : Table Json) (names : List String) : Option ColourChoice :=
  names.findSome? fun name => ((Table.get? members name).bind Json.string?).map ColourChoice.parse

/-- The first of the named members that is a truth value; false if there is none. -/
def flag (members : Table Json) (names : List String) : Bool :=
  (names.findSome? fun name => (Table.get? members name).bind Json.bool?).getD false

/-- The fields among the members of an object. -/
def fieldsOf (members : Table Json) : StyleFields where
  foreground := colour? members ["colour", "color", "foreground"]
  background := colour? members ["background"]
  font := ⟨flag members ["bold"], flag members ["italic"]⟩
  wholeWord := flag members ["whole-word", "whole_word"]
  caseInsensitive := flag members ["case-insensitive", "case_insensitive"]

/-- The style that any document stands for. -/
def ofJson : Json → Style
  | .string s => colour (.parse s)
  | .object members => full (fieldsOf members)
  | _ => full {}

/-- The style by its fields: a bare colour is the foreground. -/
def fields : Style → StyleFields
  | colour choice => { foreground := some choice }
  | full fields => fields

end Style

/-- Keywords with their styles, in the order of a scheme. -/
abbrev Keywords := Table Style

end Highlight
