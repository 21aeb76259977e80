import Highlight.Proofs.Include.Search

/-!
# Which names are looked up

The names that are looked up are those that can be reached from the include list through the
include lists of documents, where a chain may not go through the scheme itself.

One invariant carries both directions. What was visited or is pending can be reached; and what a
visited document includes was visited or is pending, so that at the end, when nothing is pending,
the visited names are closed under inclusion. A name that was skipped because another document had
put it on the stack before is no exception: it was pending then.
-/

namespace Highlight

/--
Names that can be reached from `roots` through documents that include them, without going through
the name `own`.
-/
inductive Reachable (l : Loader) (own : String) (roots : List String) : String → Prop where
  | root {name : String} : name ∈ roots → name ≠ own → Reachable l own roots name
  | through {name name' : String} {doc : Source} : Reachable l own roots name →
      l.load name = some doc → name' ∈ doc.includes → name' ≠ own → Reachable l own roots name'

variable {l : Loader} {own : String} {roots : List String} {s s' : Search}

theorem Reachable.ne_own {name : String} (h : Reachable l own roots name) : name ≠ own := by
  cases h with
  | root _ hne => exact hne
  | through _ _ _ hne => exact hne

/-- What the document of a name includes can be reached, as can the name. -/
theorem Reachable.document {name name' : String} (h : Reachable l own roots name)
    (hi : name' ∈ (l.document name).includes) (hne : name' ≠ own) :
    Reachable l own roots name' := by
  cases hl : l.load name with
  | none =>
    rw [Loader.document_of_none hl] at hi
    exact absurd hi List.not_mem_nil
  | some doc =>
    rw [Loader.document_of_some hl] at hi
    exact h.through hl hi hne

/-- A name has come up if it was visited or is pending. -/
def Search.Known (s : Search) (name : String) : Prop := name ∈ s.visited ∨ name ∈ s.pending

theorem Search.known_round (h : s.round l = some s') {n : String} (hn : s.Known n) :
    s'.Known n := by
  obtain ⟨name, pending, hp, ⟨hv, rfl⟩ | ⟨hv, rfl⟩⟩ := round_cases h
  · -- the round drops a name that was visited before
    rcases hn with hn | hn
    · exact Or.inl hn
    · rw [hp] at hn
      rcases List.mem_cons.mp hn with rfl | hn
      · exact Or.inl hv
      · exact Or.inr hn
  · -- the round visits the name, and more may come to be pending
    rcases hn with hn | hn
    · exact Or.inl (List.mem_cons_of_mem _ hn)
    · rw [hp] at hn
      rcases List.mem_cons.mp hn with rfl | hn
      · exact Or.inl List.mem_cons_self
      · exact Or.inr (List.mem_append_right _ hn)

/-- What holds of the search for what `own` includes, whose include list is `roots`. -/
structure Explored (l : Loader) (own : String) (roots : List String) (s : Search) : Prop where
  /-- No name was visited twice. -/
  nodup : s.visited.Nodup
  /-- The own name counts as visited from the start. -/
  start : s.visited.getLast? = some own
  /-- Nothing comes up that cannot be reached. -/
  sound : ∀ n, s.Known n → n = own ∨ Reachable l own roots n
  /-- The include list has come up. -/
  roots : ∀ n ∈ roots, s.Known n
  /-- What visited documents include has come up. -/
  closed : ∀ m ∈ s.visited, m ≠ own → ∀ n ∈ (l.document m).includes, s.Known n

theorem explored_start (l : Loader) (doc : Source) (name : String) :
    Explored l name doc.includes (Search.start doc name) where
  nodup := List.nodup_cons.mpr ⟨List.not_mem_nil, List.nodup_nil⟩
  start := rfl
  sound := by
    intro n hn
    by_cases hne : n = name
    · exact Or.inl hne
    · rcases hn with hn | hn
      · exact absurd (List.mem_singleton.mp hn) hne
      · exact Or.inr (Reachable.root hn hne)
  roots := fun n hn => Or.inr hn
  closed := fun m hm hne => absurd (List.mem_singleton.mp hm) hne

/-- **Every round keeps the invariant.** -/
theorem explored_round (hs : Explored l own roots s) (h : s.round l = some s') :
    Explored l own roots s' := by
  have hroots : ∀ n ∈ roots, s'.Known n := fun n hn => Search.known_round h (hs.roots n hn)
  have hclosed : ∀ m ∈ s.visited, m ≠ own → ∀ n ∈ (l.document m).includes, s'.Known n :=
    fun m hm hne n hn => Search.known_round h (hs.closed m hm hne n hn)
  obtain ⟨name, pending, hp, ⟨hv, rfl⟩ | ⟨hv, rfl⟩⟩ := Search.round_cases h
  · -- a name that was visited before leaves the stack, and nothing new comes up
    refine ⟨hs.nodup, hs.start, ?_, hroots, hclosed⟩
    intro n hn
    refine hs.sound n (hn.imp_right fun hn => ?_)
    rw [hp]
    exact List.mem_cons_of_mem _ hn
  · -- a new name moves over to the visited ones, and what its document includes comes up
    have hreach : Reachable l own roots name := by
      have hmem : name ∈ s.pending := by rw [hp]; exact List.mem_cons_self
      rcases hs.sound name (Or.inr hmem) with heq | hr
      · exact absurd (heq ▸ List.mem_of_getLast? hs.start) hv
      · exact hr
    refine ⟨List.nodup_cons.mpr ⟨hv, hs.nodup⟩, ?_, ?_, hroots, ?_⟩
    · rw [List.getLast?_cons, hs.start]
      rfl
    · intro n hn
      by_cases hne : n = own
      · exact Or.inl hne
      · rcases hn with hn | hn
        · rcases List.mem_cons.mp hn with rfl | hn
          · exact Or.inr hreach
          · exact hs.sound n (Or.inl hn)
        · rcases List.mem_append.mp hn with hn | hn
          · exact Or.inr (hreach.document hn hne)
          · refine hs.sound n (Or.inr ?_)
            rw [hp]
            exact List.mem_cons_of_mem _ hn
    · intro m hm hne n hn
      rcases List.mem_cons.mp hm with rfl | hm
      · exact Or.inr (List.mem_append_left _ hn)
      · exact hclosed m hm hne n hn

/-- When nothing is pending, the visited names are those that can be reached, and the own one. -/
theorem Explored.mem_visited_iff (hs : Explored l own roots s) (hp : s.pending = []) {n : String} :
    n ∈ s.visited ↔ n = own ∨ Reachable l own roots n := by
  have hvisited : ∀ n, s.Known n → n ∈ s.visited := by
    intro n hn
    rcases hn with hn | hn
    · exact hn
    · rw [hp] at hn
      exact absurd hn List.not_mem_nil
  constructor
  · exact fun hn => hs.sound n (Or.inl hn)
  · intro hn
    rcases hn with rfl | hn
    · exact List.mem_of_getLast? hs.start
    · -- along the chain: the include list was visited, and what visited documents include
      induction hn with
      | root hn _ => exact hvisited _ (hs.roots _ hn)
      | through hm hl hn _ ih =>
        refine hvisited _ (hs.closed _ ih hm.ne_own _ ?_)
        rw [Loader.document_of_some hl]
        exact hn

/--
**What is looked up.** The search ends, after one round for each name of the include list and for
each one that a document looked up includes. No name is looked up twice and the own one never is,
and the names looked up are just those that can be reached without going through the own one.
-/
theorem withIncludes_looks_up_reachable (doc : Source) (l : Loader) (name : String) :
    let gathered := doc.withIncludes l name
    (∃ final, Search.after l (doc.includes.length
          + (gathered.loads.map fun n => (l.document n).includes.length).sum)
          (Search.start doc name) = some final ∧
        final.round l = none ∧ final.merged = gathered.keywords ∧
        final.visited.reverse = name :: gathered.loads) ∧
      gathered.loads.Nodup ∧ name ∉ gathered.loads ∧
      ∀ n, n ∈ gathered.loads ↔ Reachable l name doc.includes n := by
  intro gathered
  obtain ⟨final, hafter, hpending⟩ := Search.after_remaining l (Search.start doc name)
  have hexplored : Explored l name doc.includes final :=
    Search.after_induction (fun s s' => explored_round) _ (explored_start l doc name) hafter
  have hresult : (Search.start doc name).result l = ⟨final.merged, final.visited.reverse⟩ := by
    rw [← Search.result_after hafter, Search.result_done hpending]
  -- the own name is the first one visited, and all that is visited after it was looked up
  have hvisited : final.visited.reverse = name :: gathered.loads := by
    have hloads : gathered.loads = final.visited.reverse.tail :=
      congrArg (fun g => g.loads.tail) hresult
    have hhead : final.visited.reverse.head? = some name := by
      rw [List.head?_reverse]
      exact hexplored.start
    rw [hloads]
    exact (List.cons_head?_tail hhead).symm
  have hnodup : (name :: gathered.loads).Nodup := by
    rw [← hvisited]
    exact List.nodup_reverse.mpr hexplored.nodup
  refine ⟨⟨final, ?_, Search.round_eq_none_iff.mpr hpending,
    (congrArg Gathered.keywords hresult).symm, hvisited⟩,
    (List.nodup_cons.mp hnodup).2, (List.nodup_cons.mp hnodup).1, ?_⟩
  · rw [withIncludes_loads]
    exact hafter
  · intro n
    have hmem : n ∈ name :: gathered.loads ↔ n = name ∨ Reachable l name doc.includes n := by
      rw [← hvisited, List.mem_reverse]
      exact hexplored.mem_visited_iff hpending
    constructor
    · intro hn
      rcases hmem.mp (List.mem_cons_of_mem _ hn) with rfl | hr
      · exact absurd hn (List.nodup_cons.mp hnodup).1
      · exact hr
    · intro hr
      rcases List.mem_cons.mp (hmem.mpr (Or.inr hr)) with rfl | hn
      · exact absurd rfl hr.ne_own
      · exact hn

end Highlight
