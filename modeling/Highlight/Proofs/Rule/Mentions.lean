import Highlight.Proofs.Include.Search
import Highlight.Proofs.Rule.Batch

/-!
# Who mentions a keyword first

A keyword may stand in a scheme, in documents it includes and in each of the three keyword lists.
All of these are sources: tables of keywords with their styles, read one after another. The rules
are made of the first entries of all sources, so that there is one rule for each keyword, in the
order in which keywords first come up, and of the style that goes with the first mention.
-/

namespace Highlight

namespace Keywords

/-- Keywords that share a style, as a source. -/
def ofList (listed : List String) (style : Style) : Keywords := listed.map (·, style)

/-- Keywords with one colour for each place of the list, as a source. -/
def ofCycle (listed : List String) (colours : List Rgb) : Keywords :=
  listed.zip (colours.map fun c => Style.colour (.literal c.text))

/-- What the keyword lists mention, where `colours` are those of the cycle. -/
def listSources (lists : KeywordLists) (colours : List Rgb) : List Keywords :=
  [ofList lists.auto (.colour .auto), ofList lists.random (.colour .random),
    ofCycle lists.cyclic colours]

/--
All that mentions keywords, in the order in which it is read: the keywords of a scheme itself,
those of the documents it includes, and those of its lists.
-/
def sources (own : Keywords) (documents : List Source) (lists : KeywordLists)
    (colours : List Rgb) : List Keywords :=
  own :: documents.map (·.keywords) ++ listSources lists colours

theorem names_ofList (listed : List String) (style : Style) :
    (ofList listed style).names = listed := by
  rw [ofList, Table.names, List.map_map]
  exact List.map_id listed

theorem names_ofCycle {listed : List String} {colours : List Rgb}
    (h : colours.length = listed.length) : (ofCycle listed colours).names = listed := by
  have hle : listed.length ≤ (colours.map fun c => Style.colour (.literal c.text)).length := by
    rw [List.length_map]
    exact Nat.le_of_eq h.symm
  exact List.map_fst_zip hle

theorem names_sources (own : Keywords) (documents : List Source) {lists : KeywordLists}
    {colours : List Rgb} (h : colours.length = lists.cyclic.length) :
    Table.names (sources own documents lists colours).flatten
      = own.names ++ documents.flatMap (·.keywords.names) ++ lists.auto ++ lists.random
        ++ lists.cyclic := by
  have hlists : (listSources lists colours).flatMap Table.names
      = lists.auto ++ (lists.random ++ lists.cyclic) := by
    rw [listSources, List.flatMap_cons, List.flatMap_cons, List.flatMap_singleton, names_ofList,
      names_ofList, names_ofCycle h]
  rw [Table.names_flatten, sources, List.flatMap_append, List.flatMap_cons, List.flatMap_map,
    hlists]
  simp only [List.append_assoc]

/-- A keyword of a cycle takes the colour at its first place. -/
theorem get?_ofCycle {listed : List String} {colours : List Rgb} {keyword : String}
    (hmem : keyword ∈ listed) : (ofCycle listed colours).get? keyword
      = colours[listed.idxOf keyword]?.map fun c => Style.colour (.literal c.text) := by
  induction listed generalizing colours with
  | nil => cases hmem
  | cons k listed ih =>
    cases colours with
    | nil => rfl
    | cons c colours =>
      -- names and colours are taken off both lists together
      have hcons : ofCycle (k :: listed) (c :: colours)
          = (k, .colour (.literal c.text)) :: ofCycle listed colours := rfl
      rw [hcons, Table.get?_cons]
      by_cases hk : k = keyword
      · rw [if_pos hk, hk, List.idxOf_cons_self]
        rfl
      · have htail : keyword ∈ listed := (List.mem_cons.mp hmem).resolve_left (Ne.symm hk)
        rw [if_neg hk, ih htail, List.idxOf_cons_ne _ hk, List.getElem?_cons_succ]

end Keywords

theorem Cycle.length_hues {α : Type} [Scalar α] (n : Nat) (hue : α) :
    (hues n hue).length = n := by
  induction n generalizing hue with
  | zero => rfl
  | succ n ih => rw [hues, List.length_cons, ih]

theorem Cycle.length_drawColours (α : Type) [Scalar α] (n : Nat) (seed : Option String)
    (e : Entropy) : (drawColours α n seed e).1.length = n := by
  have hdraw : (drawColours α n seed e).1 = (hues n (start α seed e).1).map colour := rfl
  rw [hdraw, List.length_map, length_hues]

/-- The lists are put in one after another, as far as their keywords are new. -/
theorem Keywords.withLists_eq_foldl (keywords : Keywords) (lists : KeywordLists) (e : Entropy) :
    (withLists keywords lists e).1
      = (listSources lists (Cycle.drawColours Float lists.cyclic.length lists.seed e).1).foldl
        Table.putAllNew keywords := by
  unfold withLists
  by_cases hc : lists.cyclic = []
  · -- no colours are drawn for an empty list, and it would not mention anything either
    rw [if_pos hc, listSources, hc]
    rfl
  · rw [if_neg hc]
    rfl

/-- The keywords of a scheme with all it includes and lists, as the first entries of all sources. -/
theorem expanded_eq_firsts (doc : Source) (l : Loader) (name : String) (lists : KeywordLists)
    (e : Entropy) (h : doc.keywords.names.Nodup) :
    (Keywords.withLists (doc.withIncludes l name).keywords lists e).1
      = Table.firsts (Keywords.sources doc.keywords
          ((doc.withIncludes l name).loads.filterMap l.load) lists
          (Cycle.drawColours Float lists.cyclic.length lists.seed e).1).flatten := by
  have hgathered := withIncludes_keywords doc l name
  rw [← List.foldl_map (f := Source.keywords) (g := Table.putAllNew)] at hgathered
  rw [Keywords.withLists_eq_foldl, hgathered, ← List.foldl_append]
  have hown := (Table.firsts_of_nodup h).symm
  rw [Keywords.sources, List.cons_append, List.flatten_cons, ← Table.foldl_putAllNew_firsts,
    ← hown]

/--
**The first mention counts.** A scheme with all that it includes and lists has one rule for each
keyword, in the order in which the keywords come up when its own keywords, those of the documents
it includes, in the order in which these are looked up, and its three lists are read one after
another. Each rule follows the style of the first source that mentions its keyword, in its pattern,
font style and colours, where a keyword of the cycle has the colour at its first place in the whole
list. What earlier sources mention stands in front, whatever comes later. The keywords of the
scheme itself are distinct, as those of every scheme that was read are.
-/
theorem rules_follow_first_mentions (doc : Source) (l : Loader) (name : String)
    (lists : KeywordLists) (n : Nat) (e : Entropy) (h : doc.keywords.names.Nodup) :
    let gathered := doc.withIncludes l name
    let documents := gathered.loads.filterMap l.load
    let colours := (Cycle.drawColours Float lists.cyclic.length lists.seed e).1
    let sources := Keywords.sources doc.keywords documents lists colours
    let expanded := (Keywords.withLists gathered.keywords lists e).1
    let rules := (Rule.batch gathered.keywords lists n e).rules
    rules.map (·.keyword) = (doc.keywords.names ++ documents.flatMap (·.keywords.names)
        ++ lists.auto ++ lists.random ++ lists.cyclic).eraseDups ∧
      (∀ i rule, rules[i]? = some rule → ∃ style words,
        sources.findSome? (·.get? rule.keyword) = some style ∧
          rule = (Rule.make (n + i) rule.keyword style words).1 ∧ rule.Follows (n + i) style) ∧
      (∀ keyword ∈ lists.cyclic, ∃ c, colours[lists.cyclic.idxOf keyword]? = some c ∧
        (Keywords.ofCycle lists.cyclic colours).get? keyword
          = some (.colour (.literal c.text))) ∧
      ∀ earlier later, sources = earlier ++ later →
        Table.firsts earlier.flatten <+: expanded := by
  intro gathered documents colours sources expanded rules
  have hexpanded : expanded = Table.firsts sources.flatten :=
    expanded_eq_firsts doc l name lists e h
  have hlength : colours.length = lists.cyclic.length := Cycle.length_drawColours Float _ _ _
  refine ⟨?_, ?_, ?_, ?_⟩
  · rw [← Keywords.names_sources doc.keywords documents hlength, ← Table.names_firsts,
      ← hexpanded]
    exact Rule.keywords_makeAll n expanded _
  · intro i rule hrule
    obtain ⟨style, words, hmem, hmade⟩ := Rule.exists_of_getElem?_makeAll hrule
    have hfollows := Rule.follows_make (n + i) rule.keyword style words
    rw [← hmade] at hfollows
    refine ⟨style, words, ?_, hmade, hfollows⟩
    -- names are distinct in what the lists have been put into, so an entry is found by its name
    have hnodup : expanded.names.Nodup := by
      rw [hexpanded]
      exact Table.nodup_names_firsts _
    rw [← Table.get?_flatten, ← Table.get?_firsts, ← hexpanded]
    exact Table.get?_of_mem hnodup hmem
  · -- the cycle is as long as its list, so each place of the list has a colour
    intro keyword hk
    have hlt : lists.cyclic.idxOf keyword < colours.length := by
      rw [hlength]
      exact List.idxOf_lt_length_of_mem hk
    refine ⟨colours[lists.cyclic.idxOf keyword], List.getElem?_eq_getElem hlt, ?_⟩
    rw [Keywords.get?_ofCycle hk, List.getElem?_eq_getElem hlt]
    rfl
  · -- what stands in front is kept when more is read
    intro earlier later hsplit
    rw [hexpanded, hsplit, List.flatten_append]
    exact Table.firsts_prefix_append _ _

/--
Two documents that include each other, keywords mentioned several times, and all three lists. The
second rule is one for bold letters, as the first document that mentions its keyword has it.
-/
theorem rules_follow_first_mentions_of_two_documents :
    let plain := Style.full {}
    let bold := Style.full { font := ⟨true, false⟩, caseInsensitive := true }
    let doc : Source := ⟨[("a", plain)], ["x", "y"]⟩
    let l := Loader.ofTable [("x", ⟨[("b", bold), ("a", bold)], ["y"]⟩),
      ("y", ⟨[("c", plain), ("b", plain)], ["x"]⟩)]
    let lists : KeywordLists := ⟨["b", "d"], ["a", "d"], ["e", "c", "e"], some ""⟩
    let rules := (Rule.batch (doc.withIncludes l "s").keywords lists 0 ⟨fun _ => 0, 0⟩).rules
    doc.keywords.names.Nodup ∧ rules.map (·.keyword) = ["a", "b", "c", "d", "e"] ∧
      rules[1]? = some ⟨"b", "(?i:\\bb\\b)", "b1", none, none, ⟨true, false⟩⟩ := by
  intro plain bold doc l lists rules
  have hnodup : doc.keywords.names.Nodup := by decide
  obtain ⟨hkeywords, hrules, _⟩ :=
    rules_follow_first_mentions doc l "s" lists 0 ⟨fun _ => 0, 0⟩ hnodup
  have hloads : (doc.withIncludes l "s").loads = ["x", "y"] := by cbv
  have hnames : rules.map (·.keyword) = ["a", "b", "c", "d", "e"] := by
    rw [hkeywords, hloads]
    decide
  refine ⟨hnodup, hnames, ?_⟩
  have hsecond : rules[1]?.map (·.keyword) = some "b" := by
    rw [← List.getElem?_map, hnames]
    rfl
  obtain ⟨rule, hrule, hkeyword⟩ := Option.map_eq_some_iff.mp hsecond
  -- the style is found in the first document, before the second one is read
  obtain ⟨style, _, hfirst, _, hfollows⟩ := hrules 1 rule hrule
  rw [hloads, hkeyword] at hfirst
  obtain rfl : bold = style := Option.some.inj hfirst
  have hpattern : rule.pattern = "(?i:\\bb\\b)" := by
    have hletters : ∀ c ∈ "b".toList, c.isAlpha = true := by simp
    rw [hfollows.pattern, hkeyword]
    dsimp only
    rw [if_pos (Or.inr hletters), if_pos (show bold.fields.caseInsensitive = true from rfl)]
    decide
  have hidentifier : rule.identifier = "b1" := by
    rw [← String.toList_inj, hfollows.identifier, hkeyword]
    rfl
  refine hrule.trans (congrArg some ?_)
  cases rule
  rw [Rule.mk.injEq]
  exact ⟨hkeyword, hpattern, hidentifier, hfollows.foreground, hfollows.background, hfollows.font⟩

end Highlight
