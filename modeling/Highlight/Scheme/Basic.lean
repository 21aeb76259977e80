import Highlight.Path
import Highlight.Style

/-!
# Schemes

A scheme maps keywords to styles. It may include the keywords of other documents, list keywords
whose colours are made up for them, and ask that existing syntax files be extended instead of new
ones made. It is named after its file, up to the first dot.
-/

namespace Highlight

/-- Keywords that only need to be listed. -/
structure KeywordLists where
  /-- Coloured by their own digests. -/
  auto : List String := []
  /-- Coloured at random. -/
  random : List String := []
  /-- Coloured by one cycle of hues. -/
  cyclic : List String := []
  /-- What the cycle starts from; a random colour if there is none. -/
  seed : Option String := none
  deriving DecidableEq, Repr

/-- Whether no keyword is listed. -/
def KeywordLists.isEmpty (lists : KeywordLists) : Bool :=
  lists.auto.isEmpty && lists.random.isEmpty && lists.cyclic.isEmpty

/-- The syntax files to extend instead of making new ones. -/
structure Derivation where
  grammar : String
  theme : String
  settings : String
  /-- The path to the part of the grammar that gets the rules. -/
  scope : String := ""
  deriving DecidableEq, Repr

/-- A scheme and where it comes from. -/
structure Scheme where
  name : String := ""
  directory : Path := ⟨""⟩
  keywords : Keywords := []
  includes : List String := []
  extensions : List String := []
  autocompletion : Bool := false
  settings : Table Json := []
  lists : KeywordLists := {}
  derivation : Option Derivation := none

/-- The name of the scheme in a file: the file's name up to its first dot, if it is a text. -/
def Scheme.nameOf (p : Path) : String :=
  String.ofList (((p.fileName?.bind RawText.text?).getD "").toList.takeWhile (· ≠ '.'))

end Highlight
