import Highlight.Proofs.Colour.Text
import Highlight.Proofs.Rule.Chance

/-!
# The colours of a cycle

A cycle has one colour for each place of its whole list. A keyword that nothing else mentions gets
the colour at its first place there, whatever becomes of the keywords round it: those that are
mentioned elsewhere, or came up in the list before, leave their colours unused and do not pass them
on. On the way the colour is written into a style and read again when the rule is made.
-/

namespace Highlight

/-- A keyword that only the cycle mentions is put in once, with the colour at its first place. -/
theorem Keywords.filter_withLists {keywords : Keywords} {lists : KeywordLists} {keyword : String}
    {c : Rgb} {e : Entropy} (hcyclic : keyword ∈ lists.cyclic)
    (hnew : keyword ∉ (beforeCycle keywords lists).names)
    (hc : (Cycle.drawColours Float lists.cyclic.length lists.seed e).1[
      lists.cyclic.idxOf keyword]? = some c) :
    (withLists keywords lists e).1.filter (·.1 = keyword)
      = [(keyword, .colour (.literal c.text))] := by
  rw [withLists_eq_putAllNew, Table.filter_putAllNew hnew, get?_ofCycle hcyclic, hc]
  rfl

namespace Rule

theorem filter_makeAll_of_not_mem {keywords : Keywords} {keyword : String}
    (h : keyword ∉ keywords.names) (n : Nat) (e : Entropy) :
    (makeAll n keywords e).1.filter (·.keyword = keyword) = [] := by
  rw [List.filter_eq_nil_iff]
  intro rule hrule
  rw [decide_eq_true_eq]
  rintro rfl
  refine h ?_
  rw [← keywords_makeAll n keywords e]
  exact List.mem_map_of_mem hrule

/-- A keyword that stands there once gets one rule, made of its own style. -/
theorem exists_filter_makeAll {keywords : Keywords} {keyword : String} {style : Style}
    (h : keywords.filter (·.1 = keyword) = [(keyword, style)]) (n : Nat) (e : Entropy) :
    ∃ m words, (makeAll n keywords e).1.filter (·.keyword = keyword)
      = [(make m keyword style words).1] := by
  induction keywords generalizing n e with
  | nil => cases h
  | cons entry rest ih =>
    obtain ⟨k, style'⟩ := entry
    rw [makeAll_cons]
    by_cases hk : k = keyword
    · -- the keyword itself, which comes up only once, so no later rule is one for it
      subst hk
      rw [List.filter_cons_of_pos (by simp)] at h
      obtain ⟨hentry, hrest⟩ := List.cons.inj h
      obtain rfl : style' = style := congrArg Prod.snd hentry
      have hlater : k ∉ Table.names rest := by
        intro hmem
        obtain ⟨entry, hmem, hname⟩ := List.mem_map.mp hmem
        exact List.filter_eq_nil_iff.mp hrest entry hmem (by simpa using hname)
      rw [List.filter_cons_of_pos (by rw [make_keyword]; simp),
        filter_makeAll_of_not_mem hlater]
      exact ⟨n, e, rfl⟩
    · -- another keyword, whose rule is left out
      rw [List.filter_cons_of_neg (by simpa using hk)] at h
      rw [List.filter_cons_of_neg (by rw [make_keyword]; simpa using hk)]
      exact ih h _ _

/--
**A cycle gives each keyword the colour at its place.** Let a keyword of the cycle have no style of
its own and stand in neither of the other lists. Then there is exactly one rule for it, whatever the
other keywords are, and its letters have the colour at the keyword's first place in the cycle of the
whole list, which is that of the seed or else of the next random words. It has neither a background
nor a font style.
-/
theorem cycle_colours_first_places (keywords : Keywords) (lists : KeywordLists) (n : Nat)
    (e : Entropy) (keyword : String) (hcyclic : keyword ∈ lists.cyclic)
    (hown : keyword ∉ keywords.names) (hauto : keyword ∉ lists.auto)
    (hrandom : keyword ∉ lists.random) :
    let colours := (Cycle.drawColours Float lists.cyclic.length lists.seed e).1
    ∃ c rule, colours[lists.cyclic.idxOf keyword]? = some c ∧
      (batch keywords lists n e).rules.filter (·.keyword = keyword) = [rule] ∧
      rule.foreground = some c ∧ rule.background = none ∧ rule.font = {} := by
  intro colours
  have hlength : colours.length = lists.cyclic.length := Cycle.length_drawColours Float _ _ _
  have hlt : lists.cyclic.idxOf keyword < colours.length := by
    rw [hlength]
    exact List.idxOf_lt_length_of_mem hcyclic
  have hc := List.getElem?_eq_getElem hlt
  have hnew : keyword ∉ (Keywords.beforeCycle keywords lists).names := by
    rw [Keywords.mem_names_beforeCycle]
    simp [hown, hauto, hrandom]
  have hexpanded := Keywords.filter_withLists (e := e) hcyclic hnew hc
  obtain ⟨m, words, hrules⟩ := exists_filter_makeAll hexpanded n
    (Keywords.withLists keywords lists e).2
  refine ⟨_, _, hc, hrules, ?_, ?_, ?_⟩
  · -- the colour was written into the style, and is read from there
    rw [make_foreground]
    exact Rgb.ofText?_text _
  · -- the style is a bare colour, which has neither
    rw [make_background]
    rfl
  · rw [make_font]
    rfl

/-- The name before it has a style of its own, the one after it is in another list, and it comes up
again. -/
theorem cycle_colours_first_places_of_taken_names :
    let keywords : Keywords := [("a", .colour (.literal "red"))]
    let lists : KeywordLists := { auto := ["c"], cyclic := ["a", "b", "c", "b"] }
    let e : Entropy := ⟨fun k => UInt32.ofNat k, 0⟩
    "b" ∈ lists.cyclic ∧ "b" ∉ keywords.names ∧ "b" ∉ lists.auto ∧ "b" ∉ lists.random ∧
      ∃ c rule, (Cycle.drawColours Float 4 none e).1[1]? = some c ∧
        (batch keywords lists 0 e).rules.filter (·.keyword = "b") = [rule] ∧
        rule.foreground = some c ∧ rule.background = none ∧ rule.font = {} := by
  intro keywords lists e
  have hcyclic : "b" ∈ lists.cyclic := by decide
  have hown : "b" ∉ keywords.names := by decide
  have hauto : "b" ∉ lists.auto := by decide
  have hrandom : "b" ∉ lists.random := by decide
  refine ⟨hcyclic, hown, hauto, hrandom, ?_⟩
  obtain ⟨c, rule, hc, hrule, hlook⟩ :=
    cycle_colours_first_places keywords lists 0 e "b" hcyclic hown hauto hrandom
  have hplace : lists.cyclic.idxOf "b" = 1 := by decide
  rw [hplace] at hc
  exact ⟨c, rule, hc, hrule, hlook⟩

end Rule

end Highlight
