/-!
# Ordered tables

A table lists named entries in the order in which the names first came up. `put` gives a name a
new value at its old place; `putNew` leaves a name that is already there alone. Documents and
keyword maps are tables.
-/

namespace Highlight

/-- Named entries, in order. -/
abbrev Table (α : Type) := List (String × α)

namespace Table

variable {α : Type}

/-- The value of the first entry called `name`. -/
def get? : Table α → (name : String) → Option α
  | [], _ => none
  | (k, v) :: rest, name => if k = name then some v else get? rest name

/-- Whether an entry is called `name`. -/
def has (t : Table α) (name : String) : Bool := (get? t name).isSome

/-- Gives `name` the value `v`: at its place if it has one, else at the end. -/
def put : Table α → (name : String) → (v : α) → Table α
  | [], name, v => [(name, v)]
  | (k, w) :: rest, name, v =>
    if k = name then (k, v) :: rest else (k, w) :: put rest name v

/-- Appends `name` with the value `v` unless it is there already. -/
def putNew (t : Table α) (name : String) (v : α) : Table α :=
  if has t name then t else t ++ [(name, v)]

/-- Puts all entries of `entries`, in order. -/
def putAll (t : Table α) (entries : Table α) : Table α :=
  entries.foldl (fun t e => put t e.1 e.2) t

/-- Appends those entries of `entries` whose names are not yet there, in order. -/
def putAllNew (t : Table α) (entries : Table α) : Table α :=
  entries.foldl (fun t e => putNew t e.1 e.2) t

/-- The names of the entries, in order. -/
def names (t : Table α) : List String := t.map Prod.fst

end Table

end Highlight
