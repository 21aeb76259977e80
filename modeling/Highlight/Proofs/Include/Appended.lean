import Highlight.Proofs.Include.Search

/-!
# Includes that are added later

The walk through two include lists, one after the other, starts with the walk through the first of
them and goes on from what was visited then (`withIncludes_append`). Keywords are only ever
appended. So a list that has grown at its end moves nothing that was there, and where all keywords
are there already, following the same list again appends nothing.
-/

namespace Highlight

variable {own : Keywords} {first later : List String} {l : Loader} {name : String}

/-- Followed after `first`, the names of `later` that were visited by then are passed over. -/
theorem loads_append : (Source.withIncludes ⟨own, first ++ later⟩ l name).loads
    = (Source.withIncludes ⟨own, first⟩ l name).loads
      ++ visitAll l ((visitAll l [name] first).reverse ++ [name]) later := by
  rw [withIncludes_loads, withIncludes_loads, visitAll_append]

/-- The keywords of what is looked up for `later` come after those that are there for `first`. -/
theorem keywords_append : (Source.withIncludes ⟨own, first ++ later⟩ l name).keywords
    = ((visitAll l ((visitAll l [name] first).reverse ++ [name]) later).filterMap l.load).foldl
        (fun merged doc => merged.putAllNew doc.keywords)
        (Source.withIncludes ⟨own, first⟩ l name).keywords := by
  rw [withIncludes_keywords, withIncludes_keywords, loads_append, List.filterMap_append,
    List.foldl_append]

/-- What the names of `later` add are the keywords of documents that `first` does not look up. -/
theorem mem_names_append {k : String} :
    k ∈ (Source.withIncludes ⟨own, first ++ later⟩ l name).keywords.names ↔
      k ∈ (Source.withIncludes ⟨own, first⟩ l name).keywords.names ∨
      ∃ n ∈ (Source.withIncludes ⟨own, first ++ later⟩ l name).loads,
        n ∉ (Source.withIncludes ⟨own, first⟩ l name).loads ∧
        ∃ d, l.load n = some d ∧ k ∈ d.keywords.names := by
  -- more includes can only add to what is looked up
  have hloads : ∀ n ∈ (Source.withIncludes ⟨own, first⟩ l name).loads,
      n ∈ (Source.withIncludes ⟨own, first ++ later⟩ l name).loads := by
    intro n hn
    rw [loads_append]
    exact List.mem_append_left _ hn
  rw [mem_names_withIncludes, mem_names_withIncludes]
  constructor
  · rintro (hown | ⟨n, hn, d, hd, hk⟩)
    · exact Or.inl (Or.inl hown)
    · by_cases hfirst : n ∈ (Source.withIncludes ⟨own, first⟩ l name).loads
      · exact Or.inl (Or.inr ⟨n, hfirst, d, hd, hk⟩)
      · exact Or.inr ⟨n, hn, hfirst, d, hd, hk⟩
  · rintro ((hown | ⟨n, hn, d, hd, hk⟩) | ⟨n, hn, _, d, hd, hk⟩)
    · exact Or.inl hown
    · exact Or.inr ⟨n, hloads n hn, d, hd, hk⟩
    · exact Or.inr ⟨n, hn, d, hd, hk⟩

/-- What was gathered once has all the keywords that are found again. -/
theorem withIncludes_again (own : Keywords) (includes : List String) (l : Loader) (name : String) :
    Source.withIncludes ⟨(Source.withIncludes ⟨own, includes⟩ l name).keywords, includes⟩ l name
      = Source.withIncludes ⟨own, includes⟩ l name := by
  generalize hgathered : Source.withIncludes ⟨own, includes⟩ l name = gathered
  have hloads : (Source.withIncludes ⟨gathered.keywords, includes⟩ l name).loads
      = gathered.loads := by
    rw [← hgathered, withIncludes_loads, withIncludes_loads]
  have hkeywords : (Source.withIncludes ⟨gathered.keywords, includes⟩ l name).keywords
      = gathered.keywords := by
    -- the second run looks up the same documents, and all that they have is there already
    rw [withIncludes_keywords, hloads]
    apply Table.foldl_putAllNew_of_subset
    intro d hd k hk
    obtain ⟨n, hn, hload⟩ := List.mem_filterMap.mp hd
    subst hgathered
    exact mem_names_withIncludes.mpr (Or.inr ⟨n, hn, d, hload, hk⟩)
  exact Gathered.ext hkeywords hloads

/--
**Adding includes at the end and including again are safe.** The keywords for `first` are those for
`first` and `later` up to some point, with their styles and in their order, and so are the names
looked up; what comes after that point are keywords of documents that are looked up for `later`
only. The own keywords always stand in front, and what was gathered once is gathered again.
-/
theorem later_includes_only_append (own : Keywords) (first later : List String) (l : Loader)
    (name : String) :
    let gathered := Source.withIncludes ⟨own, first⟩ l name
    let further := Source.withIncludes ⟨own, first ++ later⟩ l name
    gathered.keywords <+: further.keywords ∧ gathered.loads <+: further.loads ∧
    (∀ k, k ∈ further.keywords.names ↔ k ∈ gathered.keywords.names ∨
      ∃ n ∈ further.loads, n ∉ gathered.loads ∧ ∃ d, l.load n = some d ∧ k ∈ d.keywords.names) ∧
    own <+: gathered.keywords ∧
    Source.withIncludes ⟨gathered.keywords, first⟩ l name = gathered := by
  intro gathered further
  refine ⟨?_, ?_, fun k => mem_names_append, ?_, withIncludes_again own first l name⟩
  · have hkeywords : further.keywords = _ := keywords_append
    rw [hkeywords]
    exact Table.prefix_foldl_putAllNew
  · have hloads : further.loads = _ := loads_append
    rw [hloads]
    exact List.prefix_append _ _
  · have hkeywords : gathered.keywords = _ := withIncludes_keywords _ l name
    rw [hkeywords]
    exact Table.prefix_foldl_putAllNew

end Highlight
