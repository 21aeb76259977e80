import Highlight.Proofs.Scheme.Form
import Mathlib.Data.List.Perm.Basic

/-!
# A scheme is a set of members

The text of a scheme is its members in braces, with commas between them. Which member is which is a
matter of the text alone (`IsMember`); read on its own each gives a part of the draft (`IsPart`),
and the draft of the whole is what the parts hold together. So the members may stand in any order,
and members with names that a scheme does not have may stand anywhere among them.
-/

namespace Highlight.Scheme

open Json

variable {d d₁ part : Draft} {parts : List Draft} {piece trail : List Char}
  {pieces : List (List Char)} {scheme : Scheme}

/-- Alone, the member gives the part. -/
def IsPart (piece : List Char) (part : Draft) : Prop :=
  ∃ inner after, skipBlank piece = '"' :: inner ∧ named member {} inner = .ok (part, after) ∧
    skipBlank after = []

theorem named_member_eq_ok_iff {input rest : List Char} :
    named member d input = .ok (d₁, rest) ↔
      ∃ part, named member {} input = .ok (part, rest) ∧ Joined [d, part] d₁ := by
  constructor
  · intro h
    obtain ⟨⟨name, mid⟩, hname, h⟩ := exists_of_bind_ok h
    obtain ⟨part, hpart, hjoined⟩ := member_eq_ok_iff.mp h
    exact ⟨part, bind_ok hname hpart, hjoined⟩
  · rintro ⟨part, h, hjoined⟩
    obtain ⟨⟨name, mid⟩, hname, h⟩ := exists_of_bind_ok h
    exact bind_ok hname (member_eq_ok_iff.mpr ⟨part, h, hjoined⟩)

/-- Within a text a member brings the part that it gives alone. -/
theorem IsPart.read_iff (h : IsPart piece part) {c : Char} (hc : isBlank c = false)
    (hends : Ends [c]) (more : List Char) : ∃ inner mid,
      skipBlank (piece ++ c :: more) = '"' :: inner ∧ skipBlank mid = c :: more ∧
      ∀ d d₁ rest, named member d inner = .ok (d₁, rest) ↔ Joined [d, part] d₁ ∧ rest = mid := by
  obtain ⟨inner, after, hquote, hread, hafter⟩ := h
  obtain ⟨used, rfl, htakes⟩ := local_named local_member {} _ _ _ hread
  have hmid : skipBlank (after ++ c :: more) = c :: more := by
    rw [skipBlank_append hafter, skipBlank_of_not_blank hc]
  have hpart := htakes (after ++ c :: more) (ends_of_skipBlank hmid hends)
  refine ⟨used ++ (after ++ c :: more), after ++ c :: more, ?_, hmid, fun d d₁ rest => ?_⟩
  · rw [skipBlank_append_of_cons hquote, List.append_assoc]
  · rw [named_member_eq_ok_iff]
    constructor
    · rintro ⟨part', hpart', hjoined⟩
      rw [hpart] at hpart'
      cases hpart'
      exact ⟨hjoined, rfl⟩
    · rintro ⟨hjoined, rfl⟩
      exact ⟨part, hpart, hjoined⟩

/-- A member within a text that is read gives a part when it is read alone. -/
theorem exists_isPart {c : Char} {more inner rest : List Char} (hpiece : IsMember piece)
    (hc : isBlank c = false) (hends : Ends [c])
    (hquote : skipBlank (piece ++ c :: more) = '"' :: inner)
    (hread : named member d inner = .ok (d₁, rest)) :
    (∃ part, IsPart piece part) ∧ skipBlank rest = c :: more := by
  obtain ⟨inner₀, after, hquote₀, hform, hafter⟩ := hpiece
  obtain ⟨used, rfl, htakes⟩ := local_ignoredMember local_ignored () _ _ _ hform
  have hmid : skipBlank (after ++ c :: more) = c :: more := by
    rw [skipBlank_append hafter, skipBlank_of_not_blank hc]
  rw [skipBlank_append_of_cons hquote₀, List.append_assoc] at hquote
  obtain rfl := (List.cons.inj hquote).2
  -- what was read has the form of what is passed over, and so ends where that ends
  have hpassed := htakes (after ++ c :: more) (ends_of_skipBlank hmid hends)
  rw [formedEntry_member.named _ _ _ _ hread] at hpassed
  cases hpassed
  obtain ⟨part, hpart, _⟩ := named_member_eq_ok_iff.mp hread
  obtain ⟨used', hused, htakes'⟩ := local_named local_member {} _ _ _ hpart
  obtain rfl := List.append_cancel_right hused
  exact ⟨⟨part, used ++ after, after, hquote₀, htakes' after (ends_of_blank hafter), hafter⟩, hmid⟩

/-! ## All members -/

theorem intercalate_append_brace (piece next : List Char) (pieces : List (List Char))
    (trail : List Char) : [','].intercalate (piece :: next :: pieces) ++ '}' :: trail
      = piece ++ ',' :: ([','].intercalate (next :: pieces) ++ '}' :: trail) := by
  simp

theorem brace_ends : Ends ['}'] := startsNot_cons.mpr (by decide)

/-- The members of a scheme that is read all give parts. -/
theorem exists_parts {inner rest : List Char} (hpieces : ∀ piece ∈ pieces, IsMember piece)
    (hne : pieces ≠ [])
    (hquote : skipBlank ([','].intercalate pieces ++ '}' :: trail) = '"' :: inner)
    (h : Series (named member) d inner d₁ rest) : ∃ parts, List.Forall₂ IsPart pieces parts := by
  induction pieces generalizing d inner with
  | nil => exact absurd rfl hne
  | cons piece pieces ih =>
    obtain ⟨hpiece, hpieces⟩ := List.forall_mem_cons.mp hpieces
    cases pieces with
    | nil =>
      -- the last member is followed by the brace
      rw [List.intercalate_singleton] at hquote
      have hread : ∃ d₂ mid, named member d inner = .ok (d₂, mid) := by
        cases h with
        | last hs => exact ⟨_, _, hs⟩
        | more hs => exact ⟨_, _, hs⟩
      obtain ⟨d₂, mid, hread⟩ := hread
      obtain ⟨⟨part, hpart⟩, _⟩ := exists_isPart hpiece (by decide) brace_ends hquote hread
      exact ⟨[part], .cons hpart .nil⟩
    | cons next pieces =>
      rw [intercalate_append_brace] at hquote
      cases h with
      | last hs hclose =>
        -- a comma comes after the member, and no brace
        obtain ⟨_, hmid⟩ := exists_isPart hpiece (by decide) comma_ends hquote hs
        rw [hclose] at hmid
        cases hmid
      | more hs hcomma hnext hrest =>
        obtain ⟨⟨part, hpart⟩, hmid⟩ := exists_isPart hpiece (by decide) comma_ends hquote hs
        rw [hcomma] at hmid
        cases hmid
        obtain ⟨parts, hparts⟩ := ih hpieces (List.cons_ne_nil _ _) hnext hrest
        exact ⟨part :: parts, .cons hpart hparts⟩

/-- Members one after another are read as what their parts hold together. -/
theorem series_iff_joined (h : List.Forall₂ IsPart pieces parts) (hne : pieces ≠ []) :
    ∃ inner, skipBlank ([','].intercalate pieces ++ '}' :: trail) = '"' :: inner ∧
      ∀ d d₁ rest, Series (named member) d inner d₁ rest ↔
        Joined (d :: parts) d₁ ∧ rest = trail := by
  induction h with
  | nil => exact absurd rfl hne
  | @cons piece part pieces parts hpart hparts ih =>
    cases hparts with
    | nil =>
      obtain ⟨inner, mid, hquote, hmid, hread⟩ := hpart.read_iff (by decide) brace_ends trail
      refine ⟨inner, by rw [List.intercalate_singleton, hquote], fun d d₁ rest => ⟨?_, ?_⟩⟩
      · -- the brace comes after the member, and no comma
        intro h
        cases h with
        | last hs hclose =>
          obtain ⟨hjoined, rfl⟩ := (hread _ _ _).mp hs
          rw [hmid] at hclose
          cases hclose
          exact ⟨hjoined, rfl⟩
        | more hs hcomma =>
          obtain ⟨_, rfl⟩ := (hread _ _ _).mp hs
          rw [hmid] at hcomma
          cases hcomma
      · rintro ⟨hjoined, rfl⟩
        exact .last ((hread _ _ _).mpr ⟨hjoined, rfl⟩) hmid
    | @cons next part' pieces parts hpart' hparts =>
      obtain ⟨inner', hquote', hread'⟩ := ih (List.cons_ne_nil _ _)
      obtain ⟨inner, mid, hquote, hmid, hread⟩ := hpart.read_iff (by decide) comma_ends
        ([','].intercalate (next :: pieces) ++ '}' :: trail)
      refine ⟨inner, by rw [intercalate_append_brace, hquote], fun d d₁ rest => ⟨?_, ?_⟩⟩
      · -- the comma comes after the member, and no brace
        intro h
        cases h with
        | last hs hclose =>
          obtain ⟨_, rfl⟩ := (hread _ _ _).mp hs
          rw [hmid] at hclose
          cases hclose
        | more hs hcomma hnext hrest =>
          obtain ⟨hjoined, rfl⟩ := (hread _ _ _).mp hs
          rw [hmid] at hcomma
          cases hcomma
          rw [hquote'] at hnext
          cases hnext
          obtain ⟨hlater, rfl⟩ := (hread' _ _ _).mp hrest
          exact ⟨joined_cons_cons_iff.mpr ⟨_, hjoined, hlater⟩, rfl⟩
      · rintro ⟨hjoined, rfl⟩
        obtain ⟨d₂, hfirst, hlater⟩ := joined_cons_cons_iff.mp hjoined
        have hs := (hread d d₂ mid).mpr ⟨hfirst, rfl⟩
        exact .more hs hmid hquote' ((hread' _ _ _).mpr ⟨hlater, rfl⟩)

theorem objectOf_member_eq_ok_iff {text inside rest : List Char}
    (hbrace : skipBlank text = '{' :: inside) : objectOf member {} text = .ok (d, rest) ↔
      (skipBlank inside = '}' :: rest ∧ d = {}) ∨
        ∃ inner, skipBlank inside = '"' :: inner ∧ Series (named member) {} inner d rest := by
  rw [objectOf_eq_ok_iff, hbrace]
  simp only [List.cons.injEq, true_and, exists_eq_left', members_eq]
  exact series_eq_ok_iff (local_named local_member)

theorem skipBlank_brace {lead : List Char} (hlead : skipBlank lead = []) (inside : List Char) :
    skipBlank (lead ++ '{' :: inside) = '{' :: inside := by
  rw [skipBlank_append hlead, skipBlank_of_not_blank (by decide)]

/-- The draft of a scheme is what the parts of its members hold together. -/
theorem objectOf_iff_joined {lead gap rest : List Char} (hlead : skipBlank lead = [])
    (hgap : skipBlank gap = []) (h : List.Forall₂ IsPart pieces parts) :
    objectOf member {} (lead ++ '{' :: (gap ++ ([','].intercalate pieces ++ '}' :: trail)))
      = .ok (d, rest) ↔ Joined parts d ∧ rest = trail := by
  rw [objectOf_member_eq_ok_iff (skipBlank_brace hlead _), skipBlank_append hgap]
  cases pieces with
  | nil =>
    cases h
    have hclose : skipBlank ([','].intercalate [] ++ '}' :: trail) = '}' :: trail :=
      skipBlank_of_not_blank (by decide) trail
    rw [hclose, joined_nil_iff]
    simp [eq_comm, and_comm]
  | cons piece pieces =>
    obtain ⟨inner, hquote, hread⟩ := series_iff_joined h (List.cons_ne_nil _ _)
    rw [hquote]
    simp [hread, joined_cons_empty_iff]

theorem parse_iff_joined {text : String} (htext : Assembles pieces text.toList)
    (h : List.Forall₂ IsPart pieces parts) :
    parse text = .ok scheme ↔ ∃ d, Joined parts d ∧ ofDraft d = .ok scheme := by
  obtain ⟨lead, gap, trail, hlead, hgap, htrail, htext⟩ := htext
  rw [← String.ofList_toList (s := text), parse_eq_ok_iff, htext]
  simp [objectOf_iff_joined hlead hgap h, htrail]

/-- The text of a scheme is an object, and its members are there. -/
theorem exists_members {text : String} (h : parse text = .ok scheme) :
    ∃ pieces, (∀ piece ∈ pieces, IsMember piece) ∧ Assembles pieces text.toList := by
  rw [← String.ofList_toList (s := text), parse_eq_ok_iff] at h
  obtain ⟨d, trail, hobject, _, htrail⟩ := h
  obtain ⟨inside, hbrace, _⟩ := objectOf_eq_ok_iff.mp hobject
  obtain ⟨lead, hlead, htext⟩ := exists_blanks_append hbrace
  rcases (objectOf_member_eq_ok_iff hbrace).mp hobject with ⟨hclose, _⟩ | ⟨inner, hquote, hseries⟩
  · -- no members
    obtain ⟨gap, hgap, rfl⟩ := exists_blanks_append hclose
    exact ⟨[], List.forall_mem_nil _, lead, gap, trail, hlead, hgap, htrail, htext⟩
  · -- the series of members is cut at the commas that it was read over
    obtain ⟨gap, hgap, rfl⟩ := exists_blanks_append hquote
    have hnil : skipBlank [] = [] := rfl
    obtain ⟨pieces, hpieces, _, hinside⟩ := hseries.exists_pieces formedEntry_member.named hnil
    refine ⟨pieces, hpieces, lead, gap, trail, hlead, hgap, htrail, ?_⟩
    rw [htext, ← hinside]
    rfl

/-- However the text of a scheme is taken apart into members, they all give parts. -/
theorem exists_parts_of_parse {text : String} (h : parse text = .ok scheme)
    (htext : Assembles pieces text.toList) (hpieces : ∀ piece ∈ pieces, IsMember piece) :
    ∃ parts, List.Forall₂ IsPart pieces parts := by
  obtain ⟨lead, gap, trail, hlead, hgap, _, htext⟩ := htext
  rw [← String.ofList_toList (s := text), parse_eq_ok_iff, htext] at h
  obtain ⟨d, rest, hobject, _, _⟩ := h
  rw [objectOf_member_eq_ok_iff (skipBlank_brace hlead _), skipBlank_append hgap] at hobject
  rcases hobject with ⟨hclose, _⟩ | ⟨inner, hquote, hseries⟩
  · cases pieces with
    | nil => exact ⟨[], .nil⟩
    | cons piece pieces =>
      -- the first member starts with a quotation mark, and no brace
      obtain ⟨inner, _, hquote, _⟩ := hpieces piece List.mem_cons_self
      have hstarts : ∃ later, [','].intercalate (piece :: pieces) = piece ++ later := by
        cases pieces with
        | nil => exact ⟨[], by simp⟩
        | cons next pieces => exact ⟨',' :: [','].intercalate (next :: pieces), by simp⟩
      obtain ⟨later, hstarts⟩ := hstarts
      rw [hstarts, List.append_assoc, skipBlank_append_of_cons hquote] at hclose
      cases hclose
  · refine exists_parts hpieces ?_ hquote hseries
    rintro rfl
    cases hquote

/-! ## Members with other names -/

/-- The names of the members that a scheme may have. -/
def memberNames : List String :=
  ["keywords", "include", "extensions", "autocompletion", "settings", "deriving"] ++ listNames

/-- A member with another name, with any document that may stand in a scheme. -/
def IsForeign (piece : List Char) : Prop :=
  ∃ inner name mid v after, skipBlank piece = '"' :: inner ∧ stringBody inner = .ok (name, mid) ∧
    String.ofList name ∉ memberNames ∧ afterColon (value (maxDepth - 1)) mid = .ok (v, after) ∧
    skipBlank after = []

/-- It gives a part that holds nothing. -/
theorem IsForeign.isPart (h : IsForeign piece) : IsPart piece {} := by
  obtain ⟨inner, name, mid, v, after, hquote, hname, hforeign, hvalue, hafter⟩ := h
  refine ⟨inner, after, hquote, bind_ok hname ?_, hafter⟩
  obtain ⟨mid', hcolon, hvalue⟩ := afterColon_eq_ok_iff.mp hvalue
  simp only [memberNames, List.cons_append, List.nil_append, List.mem_cons, not_or] at hforeign
  change member {} (String.ofList name) mid = .ok ({}, after)
  simp only [member, hforeign, if_false]
  exact afterColon_eq_ok_iff.mpr ⟨mid', hcolon, bind_ok hvalue rfl⟩

/-- **A scheme is a set of members.** The text of a scheme is its members in braces. However it is
taken apart into them, with the same members in another order and with members of other names
anywhere among them it is the text of the same scheme. -/
theorem parse_members_in_any_order (text : String) (scheme : Scheme)
    (h : parse text = .ok scheme) :
    (∃ pieces, (∀ piece ∈ pieces, IsMember piece) ∧ Assembles pieces text.toList) ∧
    ∀ (pieces foreign pieces' : List (List Char)) (text' : String),
      (∀ piece ∈ pieces, IsMember piece) → Assembles pieces text.toList →
      (∀ piece ∈ foreign, IsForeign piece) → pieces'.Perm (pieces ++ foreign) →
      Assembles pieces' text'.toList → parse text' = .ok scheme := by
  refine ⟨exists_members h, ?_⟩
  intro pieces foreign pieces' text' hpieces htext hforeign hperm htext'
  obtain ⟨parts, hparts⟩ := exists_parts_of_parse h htext hpieces
  obtain ⟨d, hjoined, hdraft⟩ := (parse_iff_joined htext hparts).mp h
  -- a foreign member holds no part of the scheme
  have hempty : List.Forall₂ IsPart foreign (foreign.map fun _ => {}) := by
    rw [List.forall₂_map_right_iff, List.forall₂_same]
    exact fun piece hpiece => (hforeign piece hpiece).isPart
  -- the parts of the new text are the old ones in its order, and parts that hold nothing
  obtain ⟨parts', hparts', hperm'⟩ :=
    List.perm_comp_forall₂ hperm (List.rel_append hparts hempty)
  have hnothing : ∀ part ∈ foreign.map fun _ => ({} : Draft), part = {} := by
    intro part hpart
    obtain ⟨_, _, rfl⟩ := List.mem_map.mp hpart
    rfl
  obtain ⟨listed, hjoined', hlisted⟩ := hjoined.perm hnothing hperm'
  exact (parse_iff_joined htext' hparts').mpr ⟨_, hjoined', (ofDraft_of_perm hlisted).trans hdraft⟩

/-- Members swapped, with a strange one before and between them. -/
theorem parse_members_in_any_order_of_notes :
    parse "\x7b\"include\": [\"a\"], \"cyclic_seed\": \"red\"\x7d"
        = .ok { includes := ["a"], lists := { seed := some "red" } } ∧
      parse ("\x7b\"note\": [1, null], \"cyclic_seed\": \"red\",\"note\": \"\"," ++
        "\"include\": [\"a\"]\x7d")
        = .ok { includes := ["a"], lists := { seed := some "red" } } := by
  have h : parse "\x7b\"include\": [\"a\"], \"cyclic_seed\": \"red\"\x7d"
      = .ok { includes := ["a"], lists := { seed := some "red" } } := by rfl
  refine ⟨h, (parse_members_in_any_order _ _ h).2
    ["\"include\": [\"a\"]".toList, " \"cyclic_seed\": \"red\"".toList]
    ["\"note\": [1, null]".toList, "\"note\": \"\"".toList]
    ["\"note\": [1, null]".toList, " \"cyclic_seed\": \"red\"".toList, "\"note\": \"\"".toList,
      "\"include\": [\"a\"]".toList] _ ?_ ?_ ?_ ?_ ?_⟩
  · rw [List.forall_mem_cons, List.forall_mem_singleton]
    exact ⟨⟨_, [], rfl, rfl, rfl⟩, ⟨_, [], rfl, rfl, rfl⟩⟩
  · exact ⟨[], [], [], rfl, rfl, rfl, by rfl⟩
  · rw [List.forall_mem_cons, List.forall_mem_singleton]
    exact ⟨⟨_, "note".toList, _, .array [.number (.integer 1), .null], [], rfl, rfl, by decide, rfl,
      rfl⟩, ⟨_, "note".toList, _, .string "", [], rfl, rfl, by decide, rfl, rfl⟩⟩
  · decide
  · exact ⟨[], [], [], rfl, rfl, rfl, by rfl⟩

end Highlight.Scheme
