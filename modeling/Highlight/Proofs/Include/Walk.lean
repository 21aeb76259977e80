import Highlight.Scheme.Include

/-!
# Walking through includes

What following includes means, said without a stack: to visit a name is to do nothing if it was
visited before, and else to look it up and to visit each name its document includes, in order.
`visit` and `visitAll` list the names that are looked up on the way.

The two call each other, and what the second call of `visitAll` starts from is known only when the
first has ended. They end all the same because names that were visited stay visited, so that
`Loader.unseen` never grows.
-/

namespace Highlight

namespace Loader

/-- The document of a name; an empty one if there is none. -/
def document (l : Loader) (name : String) : Source := (l.load name).getD ⟨[], []⟩

theorem document_of_some {l : Loader} {name : String} {doc : Source} (h : l.load name = some doc) :
    l.document name = doc := by rw [document, h]; rfl

theorem document_of_none {l : Loader} {name : String} (h : l.load name = none) :
    l.document name = ⟨[], []⟩ := by rw [document, h]; rfl

theorem document_includes_subset (l : Loader) (name : String) :
    ∀ n ∈ (l.document name).includes, n ∈ l.names := by
  cases h : l.load name with
  | none => rw [document_of_none h]; exact fun n hn => absurd hn List.not_mem_nil
  | some doc => rw [document_of_some h]; exact includes_subset h

/-- More visited and fewer pending names leave no more unseen ones. -/
theorem unseen_le {l : Loader} {visited visited' pending pending' : List String}
    (hv : visited ⊆ visited') (hp : pending'.Sublist pending) :
    l.unseen visited' pending' ≤ l.unseen visited pending := by
  have hnames : l.names.countP (· ∉ visited') ≤ l.names.countP (· ∉ visited) := by
    apply List.countP_mono_left
    intro n _ hn
    simp only [decide_eq_true_eq] at hn ⊢
    exact fun h => hn (hv h)
  have hpending : pending'.countP (fun n => n ∉ visited' ∧ n ∉ l.names)
      ≤ pending.countP (fun n => n ∉ visited ∧ n ∉ l.names) := by
    refine Nat.le_trans (List.countP_mono_left ?_) hp.countP_le
    intro n _ hn
    simp only [decide_eq_true_eq] at hn ⊢
    exact ⟨fun h => hn.1 (hv h), hn.2⟩
  exact Nat.add_le_add hnames hpending

theorem unseen_document {l : Loader} {visited : List String} {name : String}
    (h : name ∉ visited) :
    l.unseen (name :: visited) (l.document name).includes < l.unseen visited [name] := by
  have hlt := @unseen_visit l visited [] _ name h (l.document_includes_subset name)
  rwa [List.append_nil] at hlt

end Loader

mutual

/--
Visits one name, where `visited` holds those visited before, the latest first: all names that are
looked up, in order.
-/
def visit (l : Loader) (visited : List String) (name : String) : List String :=
  if name ∈ visited then []
  else name :: visitAll l (name :: visited) (l.document name).includes
termination_by (l.unseen visited [name], 0)
decreasing_by exact Prod.Lex.left _ _ (Loader.unseen_document ‹name ∉ visited›)

/-- Visits names one after another. -/
def visitAll (l : Loader) (visited : List String) : (names : List String) → List String
  | [] => []
  | name :: names =>
    let looked := visit l visited name
    looked ++ visitAll l (looked.reverse ++ visited) names
termination_by names => (l.unseen visited names, names.length)
decreasing_by
  · have hle : l.unseen visited [name] ≤ l.unseen visited (name :: names) :=
      Loader.unseen_le (List.Subset.refl _) (List.singleton_sublist.mpr List.mem_cons_self)
    rcases Nat.lt_or_eq_of_le hle with hlt | heq
    · exact Prod.Lex.left _ _ hlt
    · rw [heq]
      exact Prod.Lex.right _ (Nat.succ_pos _)
  · have hle : l.unseen (looked.reverse ++ visited) names ≤ l.unseen visited (name :: names) :=
      Loader.unseen_le (List.subset_append_right _ _) (List.sublist_cons_self _ _)
    rcases Nat.lt_or_eq_of_le hle with hlt | heq
    · exact Prod.Lex.left _ _ hlt
    · rw [heq]
      exact Prod.Lex.right _ (Nat.lt_succ_self _)

end

theorem visit_of_mem {l : Loader} {visited : List String} {name : String} (h : name ∈ visited) :
    visit l visited name = [] := by rw [visit, if_pos h]

theorem visit_of_not_mem {l : Loader} {visited : List String} {name : String}
    (h : name ∉ visited) : visit l visited name
      = name :: visitAll l (name :: visited) (l.document name).includes := by
  rw [visit, if_neg h]

theorem visitAll_nil (l : Loader) (visited : List String) : visitAll l visited [] = [] := by
  rw [visitAll]

theorem visitAll_cons (l : Loader) (visited : List String) (name : String) (names : List String) :
    visitAll l visited (name :: names) = visit l visited name
      ++ visitAll l ((visit l visited name).reverse ++ visited) names := by
  rw [visitAll]

theorem visitAll_cons_of_mem {l : Loader} {visited : List String} {name : String}
    (h : name ∈ visited) (names : List String) :
    visitAll l visited (name :: names) = visitAll l visited names := by
  rw [visitAll_cons, visit_of_mem h]
  rfl

/-- Names in two lists are visited as those in one. -/
theorem visitAll_append (l : Loader) (visited names names' : List String) :
    visitAll l visited (names ++ names') = visitAll l visited names
      ++ visitAll l ((visitAll l visited names).reverse ++ visited) names' := by
  induction names generalizing visited with
  | nil => rw [visitAll_nil]; rfl
  | cons name names ih =>
    rw [List.cons_append, visitAll_cons, visitAll_cons, ih, List.reverse_append,
      List.append_assoc, List.append_assoc]

/--
A new name is looked up, and then what its document includes is visited before what was pending.
This is why pending names can wait on a stack.
-/
theorem visitAll_cons_of_not_mem {l : Loader} {visited : List String} {name : String}
    (h : name ∉ visited) (names : List String) :
    visitAll l visited (name :: names)
      = name :: visitAll l (name :: visited) ((l.document name).includes ++ names) := by
  rw [visitAll_cons, visit_of_not_mem h, visitAll_append, List.reverse_cons, List.append_assoc]
  rfl

end Highlight
