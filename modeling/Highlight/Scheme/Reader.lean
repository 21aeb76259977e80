import Highlight.Json.Ignored
import Highlight.Scheme.Basic

/-!
# Reading schemes

A scheme is an object with fixed fields, all of which may be missing; members with other names are
read and dropped. Each field is checked as it is met and may come up once, except for the keyword
lists, which are checked together when the object has ended.
-/

namespace Highlight.Scheme

open Json

variable {α : Type}

/-- Fails on a value of the wrong type: at its start for an array or object, else after it. -/
def refuse : Reader α := fun text =>
  match skipBlank text with
  | [] => .error .cutShort
  | '[' :: _ => .error .illTyped
  | '{' :: _ => .error .illTyped
  | text => do
    let _ ← value 0 text
    .error .illTyped

/-- A text. -/
def text : Reader String := fun input =>
  match skipBlank input with
  | '"' :: rest => do
    let (s, rest) ← stringBody rest
    return (String.ofList s, rest)
  | input => refuse input

/-- A truth value. -/
def truth : Reader Bool := fun input =>
  match skipBlank input with
  | 't' :: rest => do return (true, ← word rest ['r', 'u', 'e'])
  | 'f' :: rest => do return (false, ← word rest ['a', 'l', 's', 'e'])
  | input => refuse input

/-- An array of texts. -/
def texts : Reader (List String) := fun input =>
  match skipBlank input with
  | '[' :: rest => items text rest
  | input => refuse input

/-- An object whose members `entry` reads. -/
def objectOf (entry : α → String → Reader α) (start : α) : Reader α := fun input =>
  match skipBlank input with
  | '{' :: rest => members entry start rest
  | input => refuse input

/-- A table of documents with at most `depth` containers in each. -/
def tableOf (depth : Nat) (ofJson : Json → α) : Reader (Table α) :=
  objectOf (fun t name => afterColon fun input => do
    let (v, rest) ← value depth input
    return (t.put name (ofJson v), rest)) []

/-! ## The syntax files to extend -/

/-- At most `n` texts of an array whose bracket was opened. The closing bracket is left. -/
def textsUpTo : (n : Nat) → (isFirst : Bool) → Reader (List String)
  | 0, _, input => .ok ([], input)
  | n + 1, isFirst, input =>
    match skipBlank input with
    | [] => .error .cutShort
    | ']' :: rest => .ok ([], ']' :: rest)
    | c :: rest =>
      if isFirst then next n (c :: rest)
      else if c = ',' then
        match skipBlank rest with
        | [] => .error .cutShort
        | ']' :: _ => .error .illFormed
        | rest => next n rest
      else .error .illFormed
where
  /-- A text and at most `n` more. -/
  next (n : Nat) : Reader (List String) := fun input => do
    let (s, rest) ← text input
    let (ss, rest) ← textsUpTo n false rest
    return (s :: ss, rest)

/-- A derivation given by its fields in order, after the opening bracket. -/
def derivationOfArray : Reader Derivation := fun input => do
  let (fields, rest) ← textsUpTo 4 true input
  let derivation ←
    match fields with
    | [grammar, theme, settings] => .ok { grammar, theme, settings }
    | [grammar, theme, settings, scope] => .ok { grammar, theme, settings, scope }
    | _ => .error .illTyped
  match skipBlank rest with
  | [] => .error .cutShort
  | ']' :: rest => return (derivation, rest)
  | _ => .error .illFormed

/-- The field that a member of a derivation stands for; the scope has two names. -/
def derivationField? (name : String) : Option String :=
  if name = "grammar" ∨ name = "theme" ∨ name = "settings" ∨ name = "scope" then some name
  else if name = "insertion_scope" then some "scope"
  else none

/-- One member of a derivation. A field may come up once; other members are passed over. -/
def derivationMember (fields : Table String) (name : String) : Reader (Table String) :=
  match derivationField? name with
  | some field =>
    if fields.has field then fun _ => .error .illTyped
    else
      afterColon fun input => do
        let (s, rest) ← text input
        return (fields.put field s, rest)
  | none =>
    afterColon fun input => do
      let ((), rest) ← ignored input
      return (fields, rest)

/-- A derivation given by its members, after the opening brace. -/
def derivationOfObject : Reader Derivation := fun input => do
  let (fields, rest) ← members derivationMember [] input
  match fields.get? "grammar", fields.get? "theme", fields.get? "settings" with
  | some grammar, some theme, some settings =>
    return (⟨grammar, theme, settings, (fields.get? "scope").getD ""⟩, rest)
  | _, _, _ => .error .illTyped

/-- A derivation, or a null for none. -/
def derivationReader : Reader (Option Derivation) := fun input =>
  match skipBlank input with
  | 'n' :: rest => do return (none, ← word rest ['u', 'l', 'l'])
  | '[' :: rest => do
    let (d, rest) ← derivationOfArray rest
    return (some d, rest)
  | '{' :: rest => do
    let (d, rest) ← derivationOfObject rest
    return (some d, rest)
  | input => refuse input

/-! ## The keyword lists -/

/-- The names of the members that make up the keyword lists. -/
def listNames : List String :=
  ["auto_keywords", "random_keywords", "cyclic_keywords", "cyclic_seed"]

/-- The value of the only member called `name`, read by `ofJson`; `default` if there is none. -/
def listField (members : List (String × Json)) (name : String) (default : α)
    (ofJson : Json → Option α) : Except Failure α :=
  match members.filter (·.1 = name) with
  | [] => .ok default
  | [(_, v)] => (ofJson v).elim (.error .illTyped) .ok
  | _ => .error .illTyped

/-- The items of an array of texts. -/
def textItems? (doc : Json) : Option (List String) :=
  doc.array?.bind (·.mapM Json.string?)

/-- A text, or a null for none. -/
def textOrNull? : Json → Option (Option String)
  | .null => some none
  | .string s => some (some s)
  | _ => none

/-- The keyword lists among the members of a scheme. -/
def listsOf (members : List (String × Json)) : Except Failure KeywordLists := do
  let auto ← listField members "auto_keywords" [] textItems?
  let random ← listField members "random_keywords" [] textItems?
  let cyclic ← listField members "cyclic_keywords" [] textItems?
  let seed ← listField members "cyclic_seed" none textOrNull?
  return { auto, random, cyclic, seed }

/-! ## The scheme -/

/-- What is known of a scheme while it is read. -/
structure Draft where
  keywords : Option Keywords := none
  includes : Option (List String) := none
  extensions : Option (List String) := none
  autocompletion : Option Bool := none
  settings : Option (Table Json) := none
  derivation : Option (Option Derivation) := none
  /-- The members of the keyword lists, yet unchecked. -/
  listed : List (String × Json) := []

/-- Reads a field that must not have come up before. -/
def once (old : Option α) (reader : Reader α) (set : α → Draft) : Reader Draft :=
  if old.isSome then fun _ => .error .illTyped
  else
    afterColon fun input => do
      let (v, rest) ← reader input
      return (set v, rest)

/-- One member of a scheme. -/
def member (d : Draft) (name : String) : Reader Draft :=
  if name = "keywords" then
    once d.keywords (tableOf (maxDepth - 2) Style.ofJson) fun v => { d with keywords := some v }
  else if name = "include" then once d.includes texts fun v => { d with includes := some v }
  else if name = "extensions" then once d.extensions texts fun v => { d with extensions := some v }
  else if name = "autocompletion" then
    once d.autocompletion truth fun v => { d with autocompletion := some v }
  else if name = "settings" then
    once d.settings (tableOf (maxDepth - 2) id) fun v => { d with settings := some v }
  else if name = "deriving" then
    once d.derivation derivationReader fun v => { d with derivation := some v }
  else
    afterColon fun input => do
      let (v, rest) ← value (maxDepth - 1) input
      return (if name ∈ listNames then { d with listed := d.listed ++ [(name, v)] } else d, rest)

/-- The scheme of a draft; what did not come up takes its default. -/
def ofDraft (d : Draft) : Except Failure Scheme := do
  let lists ← listsOf d.listed
  return {
    keywords := d.keywords.getD []
    includes := d.includes.getD []
    extensions := d.extensions.getD []
    autocompletion := d.autocompletion.getD false
    settings := d.settings.getD []
    lists
    derivation := d.derivation.getD none }

/-- A scheme at the front of a text. -/
def reader : Reader Scheme := fun input => do
  let (d, rest) ← objectOf member {} input
  return (← ofDraft d, rest)

/-- The scheme a text stands for, with neither name nor directory. -/
def parse (text : String) : Except Failure Scheme := whole reader text

end Highlight.Scheme
