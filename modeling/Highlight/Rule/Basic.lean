import Highlight.Rule.Colour
import Highlight.Rule.Pattern
import Highlight.Scheme.Basic

/-!
# Rules

Each keyword of a scheme becomes one rule: a pattern, an identifier of its own, colours and a font
style. Identifiers are the letters of the keyword and a running number. The keywords that are only
listed come after those with a style; where one has been mentioned before, the first mention
counts.
-/

namespace Highlight

/-- What is drawn how. -/
structure Rule where
  keyword : String
  pattern : String
  identifier : String
  foreground : Option Rgb := none
  background : Option Rgb := none
  font : FontStyle := {}
  deriving DecidableEq, Repr

/-- The identifier of the rule with number `n` for a keyword. -/
def Rule.identifierOf (keyword : String) (n : Nat) : String :=
  Pattern.letters keyword ++ String.ofList (Nat.toDigits 10 n)

namespace Keywords

/-- Appends keywords that share a style, as far as they are new. -/
def addListed (keywords : Keywords) (listed : List String) (style : Style) : Keywords :=
  keywords.putAllNew (listed.map (·, style))

/--
The keywords with the listed ones. A cycle is as long as its whole list, and each keyword takes the
colour at its place there, whether or not those before it are new.
-/
def withLists (keywords : Keywords) (lists : KeywordLists) (e : Entropy) :
    Keywords × Entropy :=
  let keywords := addListed keywords lists.auto (.colour .auto)
  let keywords := addListed keywords lists.random (.colour .random)
  if lists.cyclic = [] then (keywords, e)
  else
    let (colours, e) := Cycle.drawColours Float lists.cyclic.length lists.seed e
    let styles := colours.map fun c => Style.colour (.literal c.text)
    (Table.putAllNew keywords (lists.cyclic.zip styles), e)

end Keywords

namespace Rule

/-- The rule with number `n`, for a keyword and its style. Random colours are drawn. -/
def make (n : Nat) (keyword : String) (style : Style) (e : Entropy) : Rule × Entropy :=
  let fields := style.fields
  let (foreground, e) := ColourChoice.pick? fields.foreground keyword .foreground e
  let (background, e) := ColourChoice.pick? fields.background keyword .background e
  let pattern := Pattern.ofKeyword keyword fields.wholeWord fields.caseInsensitive
  (⟨keyword, pattern, identifierOf keyword n, foreground, background, fields.font⟩, e)

/-- The rules of keywords in order, numbered from `n` on. -/
def makeAll : (n : Nat) → Keywords → Entropy → List Rule × Entropy
  | _, [], e => ([], e)
  | n, (keyword, style) :: rest, e =>
    let (rule, e) := make n keyword style e
    let (rules, e) := makeAll (n + 1) rest e
    (rule :: rules, e)

/-- Rules, the number the next rule would get, and what is left of the random words. -/
structure Batch where
  rules : List Rule
  next : Nat
  entropy : Entropy

/-- The rules of keywords and keyword lists, numbered from `n` on. -/
def batch (keywords : Keywords) (lists : KeywordLists) (n : Nat) (e : Entropy) : Batch :=
  let (keywords, e) := Keywords.withLists keywords lists e
  let (rules, e) := makeAll n keywords e
  ⟨rules, n + rules.length, e⟩

end Rule

end Highlight
