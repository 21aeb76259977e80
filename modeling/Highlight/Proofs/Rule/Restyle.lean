import Highlight.Proofs.Rule.Chance
import Highlight.Proofs.Scheme.Restyle

/-!
# A bad style never costs a keyword

A style only says how letters are drawn. Which keywords a scheme has, in which order they become
rules and what the rules are called does not depend on styles at all, and each rule is made of the
style of its own keyword. So whatever stands in the place of a style, the other rules stay as they
are, up to random colours: for these the words are taken one after another, and the new style may
take more or fewer of them.
-/

namespace Highlight

variable {keyword : String}

theorem Source.withIncludes_sameBut {doc doc' : Source} (hincludes : doc.includes = doc'.includes)
    (h : Table.SameBut keyword doc.keywords doc'.keywords) (l : Loader) (name : String) :
    Table.SameBut keyword (doc.withIncludes l name).keywords
      (doc'.withIncludes l name).keywords := by
  have hloads : (doc.withIncludes l name).loads = (doc'.withIncludes l name).loads := by
    rw [withIncludes_loads, withIncludes_loads, hincludes]
  rw [withIncludes_keywords, withIncludes_keywords, hloads]
  generalize (doc'.withIncludes l name).loads.filterMap l.load = documents
  generalize doc.keywords = keywords at h ⊢
  generalize doc'.keywords = keywords' at h ⊢
  induction documents generalizing keywords keywords' with
  | nil => exact h
  | cons document documents ih => exact ih _ _ (h.putAllNew document.keywords)

namespace Keywords

variable {keywords keywords' : Keywords}

theorem withLists_sameBut (h : Table.SameBut keyword keywords keywords') (lists : KeywordLists)
    (e : Entropy) : Table.SameBut keyword (withLists keywords lists e).1
      (withLists keywords' lists e).1 := by
  rw [withLists_eq_putAllNew, withLists_eq_putAllNew]
  exact ((h.putAllNew _).putAllNew _).putAllNew _

theorem names_withLists_sameBut (h : Table.SameBut keyword keywords keywords')
    (lists : KeywordLists) (e e' : Entropy) :
    (withLists keywords lists e).1.names = (withLists keywords' lists e').1.names := by
  rw [(withLists_sameBut h lists e).names]
  exact names_withLists_congr keywords' lists e e'

/-- A keyword has the same style in both at its place, unless it is one that chance has given. -/
theorem withLists_place_sameBut (h : Table.SameBut keyword keywords keywords')
    {lists : KeywordLists} {e e' : Entropy} {i : Nat} {k k' : String} {style style' : Style}
    (hi : (withLists keywords lists e).1[i]? = some (k, style))
    (hi' : (withLists keywords' lists e').1[i]? = some (k', style')) (hk : k ≠ keyword) :
    k = k' ∧ (style = style' ∨ (lists.seed = none ∧ k ∈ lists.cyclic ∧
      k ∉ (beforeCycle keywords lists).names ∧
      ∃ c c' : Rgb, style = .colour (.literal c.text) ∧ style' = .colour (.literal c'.text))) := by
  obtain ⟨middle, hmiddle, hsame⟩ := (withLists_sameBut h lists e).exists_getElem? hi
  obtain rfl := hsame hk
  obtain ⟨hname, hstyle⟩ := withLists_place hmiddle hi'
  have hbefore : (beforeCycle keywords lists).names = (beforeCycle keywords' lists).names :=
    ((h.putAllNew _).putAllNew _).names
  rw [hbefore]
  exact ⟨hname, hstyle⟩

end Keywords

namespace Rule

theorem keywords_batch (keywords : Keywords) (lists : KeywordLists) (n : Nat) (e : Entropy) :
    (batch keywords lists n e).rules.map (·.keyword)
      = (Keywords.withLists keywords lists e).1.names :=
  keywords_makeAll n _ _

theorem identifiers_batch (keywords : Keywords) (lists : KeywordLists) (n : Nat) (e : Entropy) :
    (batch keywords lists n e).rules.map (·.identifier)
      = (Keywords.withLists keywords lists e).1.names.mapIdx fun i k => identifierOf k (n + i) := by
  apply List.ext_getElem?
  intro i
  rw [List.getElem?_map, getElem?_batch, List.getElem?_mapIdx, Table.names, List.getElem?_map,
    Option.map_map, Option.map_map]
  rfl

variable {keywords keywords' : Keywords}

/-- Rules of keywords of which one has another style differ in its own rule and by chance. -/
theorem sameButFor_batch_restyled (h : Table.SameBut keyword keywords keywords')
    {lists : KeywordLists} {n i : Nat} {e e' : Entropy} {k : String} {style : Style}
    {rule rule' : Rule} (hi : (Keywords.withLists keywords lists e).1[i]? = some (k, style))
    (hk : k ≠ keyword) (hrule : (batch keywords lists n e).rules[i]? = some rule)
    (hrule' : (batch keywords' lists n e').rules[i]? = some rule') :
    SameButFor (LeftToChance keywords lists k style) rule rule' := by
  rw [getElem?_batch, hi, Option.map_some] at hrule
  rw [getElem?_batch, Option.map_eq_some_iff] at hrule'
  obtain ⟨⟨k', style'⟩, hi', hmade'⟩ := hrule'
  have hmade := Option.some.inj hrule
  obtain ⟨rfl, hstyle⟩ := Keywords.withLists_place_sameBut h hi hi' hk
  subst hmade hmade'
  exact sameButFor_make hstyle _ _ _

end Rule

namespace Scheme

open Json

/--
**A bad style never costs a keyword.** Take any text that is read as a scheme, and in it the style
of any keyword. Whatever document is put in its place, as long as it nests no deeper than it may
there and its numbers can be read, the new text is read as well, and as a scheme that is the same in
everything but its keywords. Whatever documents it includes, whatever number the first rule gets and
whatever the random words are, there are as many rules as before, with the same keywords and
identifiers in the same order, and each rule of another keyword is the same but for colours that
are left to chance.
-/
theorem styles_cost_no_keyword (before style style' after : List Char) (keyword : String)
    (scheme : Scheme) (old new : Json)
    (hparse : parse (String.ofList (before ++ style ++ after)) = .ok scheme)
    (hplace : StyleAt keyword (before ++ style ++ after) (style ++ after))
    (hold : value (maxDepth - 2) (style ++ after) = .ok (old, after))
    (hnew : whole (value (maxDepth - 2)) (String.ofList style') = .ok new) :
    ∃ scheme', parse (String.ofList (before ++ style' ++ after)) = .ok scheme' ∧
      scheme' = { scheme with keywords := scheme'.keywords } ∧
      ∀ (l : Loader) (name : String) (n : Nat) (e e' : Entropy),
        let keywords := (scheme.source.withIncludes l name).keywords
        let keywords' := (scheme'.source.withIncludes l name).keywords
        let expanded := (Keywords.withLists keywords scheme.lists e).1
        let made := Rule.batch keywords scheme.lists n e
        let made' := Rule.batch keywords' scheme'.lists n e'
        made'.rules.length = made.rules.length ∧
        made'.rules.map (·.keyword) = made.rules.map (·.keyword) ∧
        made'.rules.map (·.identifier) = made.rules.map (·.identifier) ∧
        ∀ (i : Nat) k style rule rule', expanded[i]? = some (k, style) → k ≠ keyword →
          made.rules[i]? = some rule → made'.rules[i]? = some rule' →
            Rule.SameButFor (LeftToChance keywords scheme.lists k style) rule rule' := by
  obtain ⟨restyled, hparse', hsame⟩ := exists_parse_restyled hparse hplace hold hnew
  refine ⟨{ scheme with keywords := restyled }, hparse', rfl, ?_⟩
  intro l name n e e' keywords keywords' expanded made made'
  have hkeywords : Table.SameBut keyword keywords keywords' := by
    refine Source.withIncludes_sameBut ?_ ?_ l name
    · rfl
    · exact hsame
  have hnames := Keywords.names_withLists_sameBut hkeywords scheme.lists e e'
  have hmap : made'.rules.map (·.keyword) = made.rules.map (·.keyword) := by
    rw [Rule.keywords_batch, Rule.keywords_batch]
    exact hnames.symm
  refine ⟨?_, hmap, ?_, ?_⟩
  · simpa using congrArg List.length hmap
  · rw [Rule.identifiers_batch, Rule.identifiers_batch]
    exact congrArg _ hnames.symm
  · -- place by place, since the entries at a place agree but for the styled keyword
    intro i k style rule rule' hi hk hrule hrule'
    exact Rule.sameButFor_batch_restyled hkeywords hi hk hrule hrule'

/--
A list in place of a colour, for a keyword that is listed too: there still is one rule for it, in
its old place.
-/
theorem styles_cost_no_keyword_of_array :
    let before := "\x7b\"keywords\":\x7b\"a\":".toList
    let style := "\"red\"".toList
    let after := ",\"b\":\"blue\"\x7d,\"auto_keywords\":[\"a\",\"c\"]\x7d".toList
    let style' := "[null]".toList
    let e : Entropy := ⟨fun _ => 0, 0⟩
    (∃ scheme, parse (String.ofList (before ++ style ++ after)) = .ok scheme) ∧
      ∃ scheme', parse (String.ofList (before ++ style' ++ after)) = .ok scheme' ∧
        (Rule.batch (scheme'.source.withIncludes (Loader.ofTable []) "").keywords scheme'.lists 0
          e).rules.map (·.keyword) = ["a", "b", "c"] := by
  intro before style after style' e
  have hfields : ((parse (String.ofList (before ++ style ++ after))).map fun s =>
      (s.keywords, s.lists)) = .ok ([("a", .colour (.literal "red")),
        ("b", .colour (.literal "blue"))], { auto := ["a", "c"] }) := by
    decide +kernel
  obtain ⟨scheme, hparse, hscheme⟩ := exists_of_map_ok hfields
  -- the way to the style: the member of the scheme, and in its value that of the keyword
  let inner := '"' :: 'a' :: '"' :: ':' :: (style ++ after)
  have hkeywords : ValueAt member {} "keywords" (before ++ style ++ after) {} ('{' :: inner) :=
    ⟨'"' :: "keywords".toList ++ '"' :: ':' :: '{' :: inner,
      "keywords".toList ++ '"' :: ':' :: '{' :: inner, ':' :: '{' :: inner, by decide +kernel,
      rfl, .here (show stringBody _ = .ok ("keywords".toList, _) by decide +kernel) rfl, rfl⟩
  have hstyle : ValueAt (entry (maxDepth - 2) Style.ofJson) [] "a" ('{' :: inner) []
      (style ++ after) :=
    ⟨inner, inner.tail, ':' :: (style ++ after), rfl, rfl, .here rfl rfl, rfl⟩
  have hold : value (maxDepth - 2) (style ++ after) = .ok (.string "red", after) := by rfl
  have hnew : whole (value (maxDepth - 2)) (String.ofList style') = .ok (.array [.null]) := by
    refine whole_eq_ok_iff.mpr ⟨[], ?_, rfl⟩
    rw [String.toList_ofList]
    rfl
  obtain ⟨scheme', hparse', _, hrules⟩ := styles_cost_no_keyword before style style' after "a"
    scheme _ _ hparse ⟨_, _, _, hkeywords, hstyle⟩ hold hnew
  refine ⟨⟨scheme, hparse⟩, scheme', hparse', ?_⟩
  obtain ⟨_, hnames, _⟩ := hrules (Loader.ofTable []) "" 0 e e
  -- nothing is there to include
  have hown : (scheme.source.withIncludes (Loader.ofTable []) "").keywords = scheme.keywords := by
    have hnone : (scheme.source.withIncludes (Loader.ofTable []) "").loads.filterMap
        (Loader.ofTable []).load = [] := List.filterMap_eq_nil_iff.mpr fun _ _ => rfl
    rw [withIncludes_keywords, hnone]
    rfl
  obtain ⟨hk, hlists⟩ := Prod.mk.inj hscheme
  rw [hnames, Rule.keywords_batch, hown, hk, hlists]
  decide

end Scheme

end Highlight
