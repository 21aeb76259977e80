import Highlight.Scheme.Basic

/-!
# Including keywords

The keywords of a scheme are joined with those of the documents it includes, of the documents
those include, and so on. `gather` keeps a stack of names still to be looked up. A name that was
looked up before is passed over, so that documents may include each other; the scheme's own name
counts as looked up. A keyword that is already there is never replaced, so that the scheme itself
comes first, and documents looked up earlier come before later ones.

Documents come from a `Loader`. It may know infinitely many names, but the documents it has
mention only finitely many, and so every run of `gather` ends.
-/

namespace Highlight

/-- What a document contributes when it is included. -/
structure Source where
  keywords : Keywords
  includes : List String
  deriving DecidableEq

/-- What a scheme contributes when it is included. -/
def Scheme.source (s : Scheme) : Source := ⟨s.keywords, s.includes⟩

/-- Finds documents by name. -/
structure Loader where
  /-- The document of a name, if there is one that can be read. -/
  load : String → Option Source
  /-- The documents mention finitely many names. -/
  finite : ∃ names : List String, ∀ name doc, load name = some doc → ∀ n ∈ doc.includes, n ∈ names

namespace Loader

/-- Names that hold all those which documents of the loader include. -/
noncomputable def names (l : Loader) : List String := Classical.choose l.finite

/-- The names a document includes are among those of its loader. -/
theorem includes_subset {l : Loader} {name : String} {doc : Source} (h : l.load name = some doc) :
    ∀ n ∈ doc.includes, n ∈ l.names :=
  Classical.choose_spec l.finite name doc h

/-- The loader of a table of documents. -/
def ofTable (t : Table Source) : Loader where
  load := t.get?
  finite := by
    refine ⟨t.flatMap (·.2.includes), fun name doc h n hn => ?_⟩
    induction t with
    | nil => simp [Table.get?] at h
    | cons e rest ih =>
      obtain ⟨k, v⟩ := e
      simp only [Table.get?] at h
      simp only [List.flatMap_cons, List.mem_append]
      split at h
      · obtain rfl := Option.some.inj h
        exact Or.inl hn
      · exact Or.inr (ih h)

/-- How many names may still be looked up: unseen names of documents, and unseen pending ones. -/
noncomputable def unseen (l : Loader) (visited pending : List String) : Nat :=
  l.names.countP (· ∉ visited) + pending.countP (fun n => n ∉ visited ∧ n ∉ l.names)

/-- A weaker condition that holds of one more element counts more of them. -/
theorem countP_lt_of_imp {α : Type} {p q : α → Bool} {xs : List α} {a : α} (ha : a ∈ xs)
    (hq : q a) (hp : ¬ p a) (h : ∀ x, p x → q x) : xs.countP p < xs.countP q := by
  induction xs with
  | nil => exact absurd ha List.not_mem_nil
  | cons x xs ih =>
    rcases List.mem_cons.mp ha with rfl | hx
    · have hle : xs.countP p ≤ xs.countP q := List.countP_mono_left fun x _ => h x
      rw [List.countP_cons_of_pos hq, List.countP_cons_of_neg hp]
      omega
    · have hlt := ih hx
      rw [List.countP_cons, List.countP_cons]
      by_cases hpx : p x
      · rw [if_pos hpx, if_pos (h x hpx)]
        omega
      · rw [if_neg hpx]
        omega

/-- A name that was looked up before does not count. -/
theorem unseen_skip {l : Loader} {visited pending : List String} {name : String}
    (h : name ∈ visited) : l.unseen visited (name :: pending) = l.unseen visited pending := by
  rw [unseen, unseen, List.countP_cons_of_neg (by simp [h])]

/-- Looking a name up leaves fewer names, whatever its document includes. -/
theorem unseen_visit {l : Loader} {visited pending includes : List String} {name : String}
    (h : name ∉ visited) (hi : ∀ n ∈ includes, n ∈ l.names) :
    l.unseen (name :: visited) (includes ++ pending) < l.unseen visited (name :: pending) := by
  have hnone : includes.countP (fun n => n ∉ name :: visited ∧ n ∉ l.names) = 0 := by
    rw [List.countP_eq_zero]
    intro n hn
    simp [hi n hn]
  have hpending : pending.countP (fun n => n ∉ name :: visited ∧ n ∉ l.names)
      ≤ pending.countP (fun n => n ∉ visited ∧ n ∉ l.names) := by
    apply List.countP_mono_left
    intro n _ hn
    simp only [List.mem_cons, not_or, decide_eq_true_eq] at hn ⊢
    exact ⟨hn.1.2, hn.2⟩
  rw [unseen, unseen, List.countP_append, hnone]
  by_cases hn : name ∈ l.names
  · have hnames : l.names.countP (· ∉ name :: visited) < l.names.countP (· ∉ visited) :=
      countP_lt_of_imp hn (by simp [h]) (by simp) fun n => by simp
    rw [List.countP_cons_of_neg (by simp [hn])]
    omega
  · have hnames : l.names.countP (· ∉ name :: visited) ≤ l.names.countP (· ∉ visited) :=
      List.countP_mono_left fun n _ => by simp
    rw [List.countP_cons_of_pos (by simp [h, hn])]
    omega

end Loader

/-- The outcome of following all includes. -/
structure Gathered where
  keywords : Keywords
  /-- The names that were looked up, in order. -/
  loads : List String
  deriving DecidableEq

/--
Looks up the pending names, first to last, and before the later ones those that the documents
found include. `visited` holds the names looked up so far, the latest first.
-/
def gather (l : Loader) (pending visited : List String) (merged : Keywords) : Gathered :=
  match pending with
  | [] => ⟨merged, visited.reverse⟩
  | name :: pending =>
    if name ∈ visited then gather l pending visited merged
    else
      match _h : l.load name with
      | none => gather l pending (name :: visited) merged
      | some doc =>
        gather l (doc.includes ++ pending) (name :: visited) (merged.putAllNew doc.keywords)
termination_by (l.unseen visited pending, pending.length)
decreasing_by
  · rw [Loader.unseen_skip ‹name ∈ visited›]
    exact Prod.Lex.right _ (Nat.lt_succ_self _)
  · exact Prod.Lex.left _ _
      (@Loader.unseen_visit l visited pending [] name ‹name ∉ visited› (by simp))
  · exact Prod.Lex.left _ _
      (Loader.unseen_visit ‹name ∉ visited› (Loader.includes_subset ‹l.load name = some doc›))

/--
A document called `name` with everything it includes: all keywords, and the names that were looked
up.
-/
def Source.withIncludes (s : Source) (l : Loader) (name : String) : Gathered :=
  let gathered := gather l s.includes [name] s.keywords
  { gathered with loads := gathered.loads.tail }

end Highlight
