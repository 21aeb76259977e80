import Highlight.Proofs.Json.Local

/-!
# Loops over items and members

The loops inside a bracket and inside a brace have a bound that is the length of the text. What
they read is told here by two relations without a bound, `Items` and `Series`: they hold wherever
a loop succeeds, and where they hold, any bound does that the text does not exceed in length. So an
induction on what was read needs no count of steps.

`Series` is stated for any step that is made after the opening quote of a member, since members
that are wanted and members that are passed over are read by two loops of the same form.
-/

namespace Highlight.Json

variable {α σ : Type} {P : List Char → Prop}

/-! ## Up to a separator -/

/-- Blanks may stand before what ends a number. -/
theorem ends_of_skipBlank {rest rest' : List Char} {c : Char} (h : skipBlank rest = c :: rest')
    (hc : Ends [c]) : Ends rest := by
  rcases rest with _ | ⟨d, rest⟩
  · exact startsNot_nil
  by_cases hd : isBlank d
  · rcases isBlank_iff.mp hd with rfl | rfl | rfl | rfl <;> exact startsNot_cons.mpr (by decide)
  · rw [skipBlank_of_not_blank (by simpa using hd)] at h
    obtain ⟨rfl, _⟩ := List.cons.inj h
    exact startsNot_cons.mpr (startsNot_cons.mp hc)

/-- What comes before a separator, and the separator itself, do not depend on what comes after. -/
theorem LocalAt.upTo {reader : Reader α} {text rest rest' : List Char} {x : α} {c : Char}
    (h : LocalAt Ends reader text) (hread : reader text = .ok (x, rest))
    (hc : skipBlank rest = c :: rest') (hends : Ends [c]) :
    ∃ used, text = used ++ c :: rest' ∧ ∀ rest'', ∃ mid,
      reader (used ++ c :: rest'') = .ok (x, mid) ∧ skipBlank mid = c :: rest'' := by
  obtain ⟨used, rfl, htakes⟩ := h x rest hread
  obtain ⟨blanks, rfl, hblanks⟩ := exists_blanks hc
  refine ⟨used ++ blanks, by simp, ?_⟩
  intro rest''
  have hmid : skipBlank (blanks ++ c :: rest'') = c :: rest'' := hblanks rest''
  refine ⟨blanks ++ c :: rest'', ?_, hmid⟩
  rw [List.append_assoc]
  exact htakes _ (ends_of_skipBlank hmid hends)

/-! ## Arrays -/

/-- Items up to the closing bracket, the first of which starts the text. -/
inductive Items (item : Reader α) : List Char → List α → List Char → Prop where
  | last {text rest rest' : List Char} {x : α} :
      item text = .ok (x, rest) → skipBlank rest = ']' :: rest' → Items item text [x] rest'
  | more {text rest₁ rest₂ rest₃ rest' : List Char} {c : Char} {x : α} {xs : List α} :
      item text = .ok (x, rest₁) → skipBlank rest₁ = ',' :: rest₂ →
      skipBlank rest₂ = c :: rest₃ → c ≠ ']' → Items item (c :: rest₃) xs rest' →
      Items item text (x :: xs) rest'

/-- Whatever a loop reads are items. -/
theorem items_of_itemsFrom {item : Reader α} {bound : Nat} {text rest : List Char} {xs : List α}
    (h : itemsFrom item bound text = .ok (xs, rest)) : Items item text xs rest := by
  induction bound generalizing text xs with
  | zero => cases h
  | succ bound ih =>
    rw [itemsFrom] at h
    obtain ⟨⟨x, rest₁⟩, hx, h⟩ := exists_of_bind_ok h
    dsimp only at h
    split at h
    · cases h
    · next hclose =>
      -- a bracket ends the series
      cases h
      exact .last hx hclose
    · next rest₂ hcomma =>
      -- a comma must be followed by an item, which no bracket starts
      split at h
      · cases h
      · cases h
      · next hnil hclose =>
        obtain ⟨⟨xs', rest'⟩, hxs, h⟩ := exists_of_bind_ok h
        cases h
        have hitems : Items item (skipBlank rest₂) xs' rest' := ih hxs
        cases hc : skipBlank rest₂ with
        | nil => exact (hnil hc).elim
        | cons c rest₃ =>
          rw [hc] at hitems
          exact .more hx hcomma hc (fun hbracket => hclose rest₃ (hbracket ▸ hc)) hitems
    · cases h

theorem comma_ends : Ends [','] := startsNot_cons.mpr (by decide)

theorem length_lt_of_skipBlank {text rest : List Char} {c : Char}
    (h : skipBlank text = c :: rest) : rest.length < text.length := by
  obtain ⟨blanks, rfl, _⟩ := exists_blanks h
  simp
  omega

section Items

variable {item : Reader α} {text rest : List Char} {xs : List α}

/-- A bound that the text does not exceed in length does no harm. -/
theorem Items.itemsFrom (hitem : Local Ends item) (h : Items item text xs rest) {bound : Nat}
    (hbound : text.length ≤ bound) : itemsFrom item bound text = .ok (xs, rest) := by
  induction h generalizing bound with
  | last hx hclose =>
    -- a separator has been taken off, so that there was a character to count
    obtain ⟨used, rfl, _⟩ := (hitem _).upTo hx hclose (startsNot_cons.mpr (by decide))
    obtain ⟨bound, rfl⟩ : ∃ b, bound = b + 1 := ⟨bound - 1, by simp at hbound; omega⟩
    refine bind_ok hx ?_
    dsimp only
    rw [hclose]
    rfl
  | @more text rest₁ rest₂ rest₃ rest' c x xs hx hcomma hc hne hitems ih =>
    obtain ⟨used, rfl, _⟩ := (hitem _).upTo hx hcomma comma_ends
    -- an item takes at least one character, and the comma another one
    obtain ⟨bound, rfl⟩ : ∃ b, bound = b + 1 := ⟨bound - 1, by simp at hbound; omega⟩
    have hrest := length_lt_of_skipBlank hc
    have hxs : Json.itemsFrom item bound (c :: rest₃) = .ok (xs, rest') := by
      apply ih
      simp at hbound ⊢
      omega
    refine bind_ok hx ?_
    simp only [hcomma, hc]
    split
    · next h => cases h
    · next h =>
      obtain ⟨rfl, _⟩ := List.cons.inj h
      exact absurd rfl hne
    · exact bind_ok hxs rfl

/-- The items of an array do not depend on what comes after its bracket. -/
theorem Items.local (hitem : Local Ends item) (h : Items item text xs rest) :
    ∃ used, used ≠ [] ∧ text = used ++ rest ∧ ∀ rest', Items item (used ++ rest') xs rest' := by
  induction h with
  | @last text rest₁ rest' x hx hclose =>
    -- the item is read as before if the bracket comes behind it
    obtain ⟨used, rfl, htakes⟩ := (hitem text).upTo hx hclose (startsNot_cons.mpr (by decide))
    refine ⟨used ++ [']'], by simp, by simp, ?_⟩
    intro rest''
    obtain ⟨mid, hx', hclose'⟩ := htakes rest''
    rw [List.append_assoc]
    exact .last hx' hclose'
  | @more text rest₁ rest₂ rest₃ rest' c x xs hx hcomma hc hne hitems ih =>
    obtain ⟨used, rfl, htakes⟩ := (hitem text).upTo hx hcomma comma_ends
    obtain ⟨blanks, rfl, hblanks⟩ := exists_blanks hc
    -- the later items start with the character that was looked at, and take it off themselves
    obtain ⟨_ | ⟨d, used'⟩, hused', htext, hitems'⟩ := ih
    · exact absurd rfl hused'
    obtain ⟨rfl, rfl⟩ := List.cons.inj htext
    refine ⟨used ++ ',' :: blanks ++ c :: used', by simp, by simp, ?_⟩
    intro rest''
    obtain ⟨mid, hx', hcomma'⟩ := htakes (blanks ++ c :: (used' ++ rest''))
    simpa using Items.more hx' hcomma' (hblanks _) hne (hitems' rest'')

/-- Two readers that agree on all texts that are not longer read the same items. -/
theorem Items.congr {item' : Reader α} (hitem : Local Ends item) (h : Items item text xs rest)
    (hcongr : ∀ t x r, t.length ≤ text.length → item t = .ok (x, r) → item' t = .ok (x, r)) :
    Items item' text xs rest := by
  induction h with
  | last hx hclose => exact .last (hcongr _ _ _ (Nat.le_refl _) hx) hclose
  | more hx hcomma hc hne _ ih =>
    obtain ⟨used, rfl, _⟩ := (hitem _).upTo hx hcomma comma_ends
    refine .more (hcongr _ _ _ (Nat.le_refl _) hx) hcomma hc hne (ih ?_)
    intro t x r ht
    have hrest := length_lt_of_skipBlank hc
    refine hcongr t x r ?_
    simp at ht ⊢
    omega

end Items

theorem items_eq_ok_iff {item : Reader α} (hitem : Local Ends item) {text rest : List Char}
    {xs : List α} : items item text = .ok (xs, rest) ↔
      (skipBlank text = ']' :: rest ∧ xs = []) ∨
        ∃ c text', skipBlank text = c :: text' ∧ c ≠ ']' ∧ Items item (c :: text') xs rest := by
  unfold items
  split
  · next hnil => simp [hnil]
  · next text' hclose =>
    -- a bracket right at the start
    constructor
    · intro h
      cases h
      exact Or.inl ⟨hclose, rfl⟩
    · rintro (⟨h, rfl⟩ | ⟨c, text'', h, hne, _⟩)
      · rw [hclose] at h
        cases h
        rfl
      · rw [hclose] at h
        cases h
        exact absurd rfl hne
  · next hnil hclose =>
    -- the first item has a character of its own
    constructor
    · intro h
      cases hc : skipBlank text with
      | nil => exact (hnil hc).elim
      | cons c text' =>
        refine Or.inr ⟨c, text', rfl, fun hbracket => hclose text' (hbracket ▸ hc), ?_⟩
        rw [hc] at h
        exact items_of_itemsFrom h
    · rintro (⟨h, _⟩ | ⟨c, text', h, _, hitems⟩)
      · exact (hclose rest h).elim
      · rw [h]
        exact hitems.itemsFrom hitem (Nat.le_refl _)

theorem items_congr {item item' : Reader α} (hitem : Local Ends item) (hitem' : Local Ends item')
    {text rest : List Char} {xs : List α} (h : items item text = .ok (xs, rest))
    (hcongr : ∀ t x r, t.length ≤ text.length → item t = .ok (x, r) → item' t = .ok (x, r)) :
    items item' text = .ok (xs, rest) := by
  rw [items_eq_ok_iff hitem']
  rcases (items_eq_ok_iff hitem).mp h with hclose | ⟨c, text', hc, hne, hitems⟩
  · exact Or.inl hclose
  · have hlength := length_lt_of_skipBlank hc
    refine Or.inr ⟨c, text', hc, hne, hitems.congr hitem ?_⟩
    intro t x r ht
    exact hcongr t x r (Nat.le_trans ht hlength)

theorem local_items {item : Reader α} (hitem : Local Ends item) : Local Anything (items item) := by
  intro text xs rest h
  rcases (items_eq_ok_iff hitem).mp h with ⟨hclose, rfl⟩ | ⟨c, text', hc, hne, hitems⟩
  · obtain ⟨blanks, rfl, hblanks⟩ := exists_blanks hclose
    refine ⟨blanks ++ [']'], by simp, ?_⟩
    intro rest' _
    exact (items_eq_ok_iff hitem).mpr (Or.inl ⟨by simpa using hblanks rest', rfl⟩)
  · obtain ⟨blanks, rfl, hblanks⟩ := exists_blanks hc
    obtain ⟨_ | ⟨d, used⟩, hused, htext, hitems'⟩ := hitems.local hitem
    · exact absurd rfl hused
    obtain ⟨rfl, rfl⟩ := List.cons.inj htext
    refine ⟨blanks ++ c :: used, by simp, ?_⟩
    intro rest' _
    refine (items_eq_ok_iff hitem).mpr (Or.inr ⟨c, used ++ rest', ?_, hne, hitems' rest'⟩)
    simpa using hblanks (used ++ rest')

/-! ## Objects -/

/--
Members up to the closing brace, where `step` reads what follows the opening quote of a member, and
hands on what was gathered so far.
-/
inductive Series (step : σ → Reader σ) : σ → List Char → σ → List Char → Prop where
  | last {s s' : σ} {text rest rest' : List Char} :
      step s text = .ok (s', rest) → skipBlank rest = '}' :: rest' → Series step s text s' rest'
  | more {s s₁ s' : σ} {text rest₁ rest₂ rest₃ rest' : List Char} :
      step s text = .ok (s₁, rest₁) → skipBlank rest₁ = ',' :: rest₂ →
      skipBlank rest₂ = '"' :: rest₃ → Series step s₁ rest₃ s' rest' → Series step s text s' rest'

/-- Members by any step, at most `bound` of them. -/
def seriesFrom (step : σ → Reader σ) : (bound : Nat) → σ → Reader σ
  | 0, _, _ => .error .cutShort
  | bound + 1, s, text => do
    let (s, rest) ← step s text
    match skipBlank rest with
    | [] => .error .cutShort
    | '}' :: rest => return (s, rest)
    | ',' :: rest =>
      match skipBlank rest with
      | [] => .error .cutShort
      | '"' :: rest => seriesFrom step bound s rest
      | _ => .error .illFormed
    | _ => .error .illFormed

/-- The members of an object after its opening brace, by any step. -/
def series (step : σ → Reader σ) (s : σ) : Reader σ := fun text =>
  match skipBlank text with
  | [] => .error .cutShort
  | '}' :: rest => .ok (s, rest)
  | '"' :: rest => seriesFrom step rest.length s rest
  | _ => .error .illFormed

theorem membersFrom_eq (member : σ → String → Reader σ) (bound : Nat) :
    membersFrom member bound = seriesFrom (named member) bound := by
  induction bound with
  | zero => rfl
  | succ bound ih =>
    funext s text
    rw [membersFrom, ih]
    rfl

theorem members_eq (member : σ → String → Reader σ) : members member = series (named member) := by
  funext s text
  unfold members
  simp only [membersFrom_eq]
  rfl

/-- What is passed over of a member whose opening quote was taken off. -/
def ignoredMember (value : Reader Unit) : Unit → Reader Unit := fun _ text => do
  let ((), rest) ← ignoreString text
  afterColon value rest

theorem ignoreMembersFrom_eq (value : Reader Unit) (bound : Nat) :
    ignoreValue.ignoreMembersFrom value bound = seriesFrom (ignoredMember value) bound () := by
  induction bound with
  | zero => rfl
  | succ bound ih =>
    funext text
    rw [ignoreValue.ignoreMembersFrom, ih]
    exact (bind_assoc (ignoreString text) _ _).symm

theorem ignoreMembers_eq (value : Reader Unit) :
    ignoreValue.ignoreMembers value = series (ignoredMember value) () := by
  funext text
  unfold ignoreValue.ignoreMembers
  simp only [ignoreMembersFrom_eq]
  rfl

section Series

variable {step : σ → Reader σ} {s s' : σ} {text rest : List Char}

/-- Whatever a loop reads is a series. -/
theorem series_of_seriesFrom {bound : Nat} (h : seriesFrom step bound s text = .ok (s', rest)) :
    Series step s text s' rest := by
  induction bound generalizing s text with
  | zero => cases h
  | succ bound ih =>
    rw [seriesFrom] at h
    obtain ⟨⟨s₁, rest₁⟩, hs, h⟩ := exists_of_bind_ok h
    dsimp only at h
    split at h
    · cases h
    · next hclose =>
      -- a brace ends the series
      cases h
      exact .last hs hclose
    · next rest₂ hcomma =>
      -- a comma must be followed by a name
      split at h
      · cases h
      · next hquote => exact .more hs hcomma hquote (ih h)
      · cases h
    · cases h

/-- A bound that the text does not exceed in length does no harm. -/
theorem Series.seriesFrom (hstep : ∀ s, Local Ends (step s)) (h : Series step s text s' rest)
    {bound : Nat} (hbound : text.length ≤ bound) :
    seriesFrom step bound s text = .ok (s', rest) := by
  induction h generalizing bound with
  | last hs hclose =>
    obtain ⟨used, rfl, _⟩ := (hstep _ _).upTo hs hclose (startsNot_cons.mpr (by decide))
    obtain ⟨bound, rfl⟩ : ∃ b, bound = b + 1 := ⟨bound - 1, by simp at hbound; omega⟩
    refine bind_ok hs ?_
    dsimp only
    rw [hclose]
    rfl
  | @more s s₁ s' text rest₁ rest₂ rest₃ rest' hs hcomma hquote hseries ih =>
    obtain ⟨used, rfl, _⟩ := (hstep _ _).upTo hs hcomma comma_ends
    obtain ⟨bound, rfl⟩ : ∃ b, bound = b + 1 := ⟨bound - 1, by simp at hbound; omega⟩
    have hrest := length_lt_of_skipBlank hquote
    have hlater : Json.seriesFrom step bound s₁ rest₃ = .ok (s', rest') := by
      apply ih
      simp at hbound
      omega
    refine bind_ok hs ?_
    simp [hcomma, hquote, hlater]

theorem series_eq_ok_iff (hstep : ∀ s, Local Ends (step s)) :
    series step s text = .ok (s', rest) ↔ (skipBlank text = '}' :: rest ∧ s' = s) ∨
      ∃ text', skipBlank text = '"' :: text' ∧ Series step s text' s' rest := by
  constructor
  · intro h
    unfold series at h
    split at h
    · cases h
    · next hclose =>
      cases h
      exact Or.inl ⟨hclose, rfl⟩
    · next text' hquote => exact Or.inr ⟨text', hquote, series_of_seriesFrom h⟩
    · cases h
  · rintro (⟨hclose, rfl⟩ | ⟨text', hquote, hseries⟩)
    · simp [series, hclose]
    · simp [series, hquote, hseries.seriesFrom hstep (Nat.le_refl _)]

/-- The members of an object do not depend on what comes after its brace. -/
theorem Series.local (hstep : ∀ s, Local Ends (step s)) (h : Series step s text s' rest) :
    ∃ used, text = used ++ rest ∧ ∀ rest', Series step s (used ++ rest') s' rest' := by
  induction h with
  | last hs hclose =>
    -- the member is read as before if the brace comes behind it
    obtain ⟨used, rfl, htakes⟩ := (hstep _ _).upTo hs hclose (startsNot_cons.mpr (by decide))
    refine ⟨used ++ ['}'], by simp, ?_⟩
    intro rest''
    obtain ⟨mid, hs', hclose'⟩ := htakes rest''
    rw [List.append_assoc]
    exact .last hs' hclose'
  | more hs hcomma hquote _ ih =>
    obtain ⟨used, rfl, htakes⟩ := (hstep _ _).upTo hs hcomma comma_ends
    obtain ⟨blanks, rfl, hblanks⟩ := exists_blanks hquote
    obtain ⟨used', rfl, hlater⟩ := ih
    refine ⟨used ++ ',' :: blanks ++ '"' :: used', by simp, ?_⟩
    intro rest''
    obtain ⟨mid, hs', hcomma'⟩ := htakes (blanks ++ '"' :: (used' ++ rest''))
    simpa using Series.more hs' hcomma' (hblanks _) (hlater rest'')

theorem local_series (hstep : ∀ s, Local Ends (step s)) (s : σ) :
    Local Anything (series step s) := by
  intro text s' rest h
  rcases (series_eq_ok_iff hstep).mp h with ⟨hclose, rfl⟩ | ⟨text', hquote, hseries⟩
  · obtain ⟨blanks, rfl, hblanks⟩ := exists_blanks hclose
    refine ⟨blanks ++ ['}'], by simp, ?_⟩
    intro rest' _
    exact (series_eq_ok_iff hstep).mpr (Or.inl ⟨by simpa using hblanks rest', rfl⟩)
  · obtain ⟨blanks, rfl, hblanks⟩ := exists_blanks hquote
    obtain ⟨used, rfl, hseries'⟩ := hseries.local hstep
    refine ⟨blanks ++ '"' :: used, by simp, ?_⟩
    intro rest' _
    refine (series_eq_ok_iff hstep).mpr (Or.inr ⟨used ++ rest', ?_, hseries' rest'⟩)
    simpa using hblanks (used ++ rest')

/-- Two steps that agree on all texts that are not longer read the same members. -/
theorem Series.congr {step' : σ → Reader σ} (hstep : ∀ s, Local Ends (step s))
    (h : Series step s text s' rest) (hcongr : ∀ s t s' r, t.length ≤ text.length →
      step s t = .ok (s', r) → step' s t = .ok (s', r)) : Series step' s text s' rest := by
  induction h with
  | last hs hclose => exact .last (hcongr _ _ _ _ (Nat.le_refl _) hs) hclose
  | more hs hcomma hquote _ ih =>
    obtain ⟨used, rfl, _⟩ := (hstep _ _).upTo hs hcomma comma_ends
    refine .more (hcongr _ _ _ _ (Nat.le_refl _) hs) hcomma hquote (ih ?_)
    intro s t s' r ht
    have hrest := length_lt_of_skipBlank hquote
    refine hcongr s t s' r ?_
    simp at ht ⊢
    omega

end Series

theorem series_congr {step step' : σ → Reader σ} (hstep : ∀ s, Local Ends (step s))
    (hstep' : ∀ s, Local Ends (step' s)) {s s' : σ} {text rest : List Char}
    (h : series step s text = .ok (s', rest)) (hcongr : ∀ s t s' r, t.length ≤ text.length →
      step s t = .ok (s', r) → step' s t = .ok (s', r)) :
    series step' s text = .ok (s', rest) := by
  rw [series_eq_ok_iff hstep']
  rcases (series_eq_ok_iff hstep).mp h with hclose | ⟨text', hquote, hseries⟩
  · exact Or.inl hclose
  · have hlength := length_lt_of_skipBlank hquote
    refine Or.inr ⟨text', hquote, hseries.congr hstep ?_⟩
    intro s t s' r ht
    exact hcongr s t s' r (Nat.le_trans ht (Nat.le_of_lt hlength))

theorem afterColon_eq_ok_iff {reader : Reader α} {text rest : List Char} {x : α} :
    afterColon reader text = .ok (x, rest) ↔
      ∃ rest', skipBlank text = ':' :: rest' ∧ reader rest' = .ok (x, rest) := by
  unfold afterColon
  split
  · next hnil => simp [hnil]
  · next hcolon => simp [hcolon]
  · next hcolon =>
    constructor
    · intro h
      cases h
    · rintro ⟨rest', h, _⟩
      exact (hcolon rest' h).elim

theorem local_afterColon {reader : Reader α} (h : Local P reader) :
    Local P (afterColon reader) := by
  intro text x rest hread
  obtain ⟨rest', hcolon, _⟩ := afterColon_eq_ok_iff.mp hread
  refine localAt_of_skipBlank hcolon ?_ h x rest hread
  intro text rest hcolon
  rw [afterColon, hcolon]
  rfl

theorem local_named {member : σ → String → Reader σ} (h : ∀ s name, Local P (member s name))
    (s : σ) : Local P (named member s) :=
  Local.bind local_stringBody (fun name => h s (String.ofList name)) fun _ _ _ _ _ _ => trivial

theorem local_members {member : σ → String → Reader σ} (h : ∀ s name, Local Ends (member s name))
    (s : σ) : Local Anything (members member s) := by
  rw [members_eq]
  exact local_series (local_named h) s

end Highlight.Json
