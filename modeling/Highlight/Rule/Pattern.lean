/-!
# Patterns

A keyword is a regular expression. Its pattern in a grammar is the keyword itself, held to whole
words where that is asked for or the keyword consists of letters only, and made to ignore case
where that is asked for.
-/

namespace Highlight.Pattern

/-- The ASCII letters of a keyword, in order. -/
def letters (keyword : String) : String := String.ofList (keyword.toList.filter Char.isAlpha)

/-- A word boundary. -/
def boundary : String := "\\b"

/-- The pattern of a keyword. -/
def ofKeyword (keyword : String) (wholeWord caseInsensitive : Bool) : String :=
  let pattern :=
    if wholeWord || letters keyword == keyword then boundary ++ keyword ++ boundary else keyword
  if caseInsensitive then "(?i:" ++ pattern ++ ")" else pattern

end Highlight.Pattern
