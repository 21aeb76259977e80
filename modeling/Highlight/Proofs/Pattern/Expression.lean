import Mathlib.Logic.Relation

/-!
# Regular expressions

A keyword is the text of a regular expression. It is read one character at a time: literals,
literals after a backslash, `\b` for a word boundary, `*`, `|`, and the groups `(?:…)` and `(?i:…)`.
The reader keeps one frame for the whole text and one for each group that is open. A frame holds
branches, which `|` parts and which are items one after another, so that `|` binds least and `*`
only the item before it.

What an expression matches are spans of a text, from one position to another: concatenation is the
composition of such relations, repetition their reflexive transitive closure, and a boundary stays
where it is. Which characters belong to words and which are one letter in two cases is left open.
-/

namespace Highlight.Pattern

/-- A regular expression. -/
inductive Expression where
  | empty
  | literal (c : Char)
  | boundary
  | sequence (first second : Expression)
  | either (left right : Expression)
  | repeated (body : Expression)
  /-- A group, which may make its body ignore case. -/
  | group (ignoreCase : Bool) (body : Expression)
  deriving DecidableEq, Repr

namespace Expression

/-- Expressions one after another. -/
def sequenceOf : List Expression → Expression
  | [] => empty
  | r :: rest => sequence r (sequenceOf rest)

/-- One of several expressions. -/
def oneOf : List Expression → Expression
  | [] => empty
  | [r] => r
  | r :: rest => either r (oneOf rest)

/-- What stands on either side of the outermost bars of an expression. -/
def alternatives : Expression → List Expression
  | either left right => left.alternatives ++ right.alternatives
  | r => [r]

end Expression

/-! ## Reading -/

/-- What is being read: the branches before the last bar, and the items since. -/
structure Frame where
  done : List (List Expression) := []
  items : List Expression := []
  deriving DecidableEq

namespace Frame

/-- All branches, the last of which may still grow. -/
def branches (f : Frame) : List (List Expression) := f.done ++ [f.items]

def expression (f : Frame) : Expression :=
  Expression.oneOf (f.branches.map Expression.sequenceOf)

/-- One more item. -/
def add (f : Frame) (r : Expression) : Frame := { f with items := f.items ++ [r] }

/-- A new branch. -/
def bar (f : Frame) : Frame := ⟨f.branches, []⟩

/-- The last item, if there is one, repeated. -/
def star (f : Frame) : Frame :=
  match f.items.getLast? with
  | none => f
  | some r => { f with items := f.items.dropLast ++ [.repeated r] }

end Frame

/-- What the next character belongs to. -/
inductive Mode where
  | plain
  /-- After a backslash. -/
  | escape
  /-- After an opening bracket. -/
  | opened
  /-- After an opening bracket and a question mark. -/
  | question
  /-- After an opening bracket, a question mark and an `i`. -/
  | flag
  deriving DecidableEq

/-- How far an expression has been read. -/
structure Reading where
  mode : Mode := .plain
  /-- The groups that are open, the innermost first, and whether they ignore case. -/
  groups : List (Bool × Frame) := []
  root : Frame := {}
  deriving DecidableEq

/-- What a character does once it is known what it belongs to. -/
inductive Action where
  /-- The next character decides. -/
  | wait (mode : Mode)
  | item (r : Expression)
  | bar
  | star
  | opening (ignoreCase : Bool)
  | closing

/-- The characters that do not stand for themselves. -/
def isSpecial (c : Char) : Bool := c ∈ "\\()|*+?[]\x7b\x7d.^$".toList

/-- What a character does; none if it may not stand there. -/
def Mode.action? (c : Char) : Mode → Option Action
  | plain =>
    if c = '\\' then some (.wait escape)
    else if c = '(' then some (.wait opened)
    else if c = ')' then some .closing
    else if c = '|' then some .bar
    else if c = '*' then some .star
    else if isSpecial c then none
    else some (.item (.literal c))
  | escape =>
    if c = 'b' then some (.item .boundary)
    else if isSpecial c then some (.item (.literal c))
    else none
  | opened => if c = '?' then some (.wait question) else none
  | question =>
    if c = ':' then some (.opening false)
    else if c = 'i' then some (.wait flag)
    else none
  | flag => if c = ':' then some (.opening true) else none

namespace Reading

/-- The frame that is being filled. -/
def current (s : Reading) : Frame :=
  match s.groups with
  | [] => s.root
  | (_, f) :: _ => f

/-- Changes the frame that is being filled. -/
def edit (s : Reading) (e : Frame → Frame) : Reading :=
  match s.groups with
  | [] => { s with mode := .plain, root := e s.root }
  | (b, f) :: rest => { s with mode := .plain, groups := (b, e f) :: rest }

/-- Carries an action out, if it can be. A group that is closed becomes an item around it. -/
def perform? (s : Reading) : Action → Option Reading
  | .wait mode => some { s with mode }
  | .item r => some (s.edit (·.add r))
  | .bar => some (s.edit Frame.bar)
  | .star => if s.current.items = [] then none else some (s.edit Frame.star)
  | .opening b => some { s with mode := .plain, groups := (b, {}) :: s.groups }
  | .closing =>
    match s.groups with
    | [] => none
    | (b, f) :: rest => some ({ s with groups := rest }.edit (·.add (.group b f.expression)))

/-- Reads one more character. -/
def step (s : Reading) (c : Char) : Option Reading := (s.mode.action? c).bind s.perform?

/-- Reads on. -/
def read (s : Reading) (text : List Char) : Option Reading := text.foldlM step s

end Reading

/-- The expression that a text is; none if it is not well formed. -/
def parse? (text : String) : Option Expression :=
  match Reading.read {} text.toList with
  | some ⟨.plain, [], f⟩ => some f.expression
  | _ => none

/-- A bar parts more than what stands next to it, and a star repeats one item only. -/
example : parse? "a|(?i:bc*)" = some (.either (.sequence (.literal 'a') .empty)
    (.sequence
      (.group true (.sequence (.literal 'b') (.sequence (.repeated (.literal 'c')) .empty)))
      .empty)) := by
  decide +kernel

/-! ## Matching -/

/-- What matching asks of characters. -/
structure Alphabet where
  /-- Whether a character belongs to words. -/
  inWord : Char → Bool
  /-- Whether two characters are one letter in two cases. -/
  sameLetter : Char → Char → Bool

/-- The letters, digits and the underscore of ASCII. -/
def Alphabet.ascii : Alphabet where
  inWord c := c.isAlphanum || c == '_'
  sameLetter c d := c.toLower == d.toLower

variable (a : Alphabet) (text : List Char)

/-- Whether the position `i` lies between a character of a word and one that is none, or none. -/
def AtBoundary (i : Nat) : Prop :=
  (decide (0 < i) && (text[i - 1]?).any a.inWord) ≠ (text[i]?).any a.inWord

instance (i : Nat) : Decidable (AtBoundary a text i) := inferInstanceAs (Decidable (_ ≠ _))

/-- Whether an expression matches from one position to another. -/
def Expression.Matches : Expression → (ignoreCase : Bool) → Nat → Nat → Prop
  | empty, _ => fun i j => i = j
  | literal c, ignoreCase => fun i j => j = i + 1 ∧ ∃ d, text[i]? = some d ∧
      (d = c ∨ ignoreCase = true ∧ a.sameLetter c d = true)
  | boundary, _ => fun i j => i = j ∧ AtBoundary a text i
  | sequence r s, ignoreCase => fun i j =>
      ∃ k, r.Matches ignoreCase i k ∧ s.Matches ignoreCase k j
  | either r s, ignoreCase => fun i j => r.Matches ignoreCase i j ∨ s.Matches ignoreCase i j
  | repeated r, ignoreCase => Relation.ReflTransGen (r.Matches ignoreCase)
  | group b r, ignoreCase => r.Matches (ignoreCase || b)

/-- Whether the text of an expression matches the span of `text` from `i` to `j`. -/
def Spans (pattern : String) (ignoreCase : Bool) (i j : Nat) : Prop :=
  i ≤ text.length ∧ ∃ r, parse? pattern = some r ∧ r.Matches a text ignoreCase i j

end Highlight.Pattern
