/-!
# Case

Words with a fixed meaning are recognised in any ASCII case. The names of colours are looked up in
lowercase: they consist of ASCII letters, and of all other characters only the Kelvin sign has a
lowercase form among those.
-/

namespace Highlight.Text

/-- Whether `text` is `word`, which is lowercase, up to the case of ASCII letters. -/
def isWord (text word : String) : Bool := text.toList.map Char.toLower == word.toList

/-- The lowercase form of a character if that is an ASCII letter; any other character as it is. -/
def lowerName (c : Char) : Char := if c = '\u212a' then 'k' else c.toLower

/-- A text as it is looked up among names of ASCII letters. -/
def asName (text : String) : String := String.ofList (text.toList.map lowerName)

end Highlight.Text
