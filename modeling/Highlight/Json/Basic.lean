import Highlight.Table

/-!
# Documents

A JSON document as a tree. The members of an object keep their order. Integers that fit 64 bits,
signed or not, stay integers; all other numbers are binary64.
-/

namespace Highlight

/-- A number of a document. -/
inductive Number where
  | integer (n : Int)
  | real (x : Float)
  deriving DecidableEq

/-- A document or a part of one. -/
inductive Json where
  | null
  | bool (b : Bool)
  | number (n : Number)
  | string (s : String)
  | array (items : List Json)
  | object (members : List (String × Json))

namespace Json

instance : Inhabited Json := ⟨null⟩

/-- The text, if the document is one. -/
def string? : Json → Option String
  | string s => some s
  | _ => none

/-- The truth value, if the document is one. -/
def bool? : Json → Option Bool
  | bool b => some b
  | _ => none

/-- The items, if the document is an array. -/
def array? : Json → Option (List Json)
  | array items => some items
  | _ => none

/-- The members, if the document is an object. -/
def object? : Json → Option (Table Json)
  | object members => some members
  | _ => none

/-- The member called `name`, if the document is an object that has one. -/
def member? (doc : Json) (name : String) : Option Json := doc.object?.bind (·.get? name)

end Json

end Highlight
