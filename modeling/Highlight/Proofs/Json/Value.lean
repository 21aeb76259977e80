import Highlight.Proofs.Json.Series

/-!
# Documents are read locally

What a document is does not depend on what stands after it, as long as that could not go on with a
number. This holds of a document that is wanted and of one that is passed over. For the latter the
bound on the depth is the length of the whole text, what stands after the document included; but
no document nests deeper than it is long itself.
-/

namespace Highlight.Json

variable {α : Type} {P : List Char → Prop}

theorem not_takes_unsigned_nil (negative : Bool) (n : Number) :
    ¬Takes Ends (unsigned negative) [] n := by
  intro htakes
  cases htakes [] startsNot_nil

/-- One more container around what is read locally. -/
theorem local_value_of_inner (depth : Nat)
    (hinner : ∀ inner, depth = inner + 1 → Local Ends (value inner)) :
    Local Ends (value depth) := by
  intro text x rest hread
  have hvalue := hread
  rw [value] at hread
  -- the first character that is not blank tells the branch, and the branch a local reader
  split at hread
  · cases hread
  · next hc =>
    have hword := local_word Json.null ['u', 'l', 'l']
    refine localAt_of_skipBlank hc (fun _ _ h => ?_) hword.weaken _ _ hvalue
    rw [value, h]
    rfl
  · next hc =>
    have hword := local_word (Json.bool true) ['r', 'u', 'e']
    refine localAt_of_skipBlank hc (fun _ _ h => ?_) hword.weaken _ _ hvalue
    rw [value, h]
    rfl
  · next hc =>
    have hword := local_word (Json.bool false) ['a', 'l', 's', 'e']
    refine localAt_of_skipBlank hc (fun _ _ h => ?_) hword.weaken _ _ hvalue
    rw [value, h]
    rfl
  · next hc =>
    have hstring := local_stringBody.map fun s => Json.string (String.ofList s)
    refine localAt_of_skipBlank hc (fun _ _ h => ?_) hstring.weaken _ _ hvalue
    rw [value, h]
    rfl
  · next hc =>
    -- a container is read with one level less
    cases depth with
    | zero => cases hread
    | succ depth =>
      have hitems := local_items (hinner depth rfl)
      refine localAt_of_skipBlank hc (fun _ _ h => ?_) (hitems.map Json.array).weaken _ _ hvalue
      rw [value, h]
      rfl
  · next hc =>
    cases depth with
    | zero => cases hread
    | succ depth =>
      have hentry := fun (t : Table Json) name =>
        local_afterColon ((hinner depth rfl).map (Table.put t name))
      have hmembers := local_members hentry []
      refine localAt_of_skipBlank hc (fun _ _ h => ?_) (hmembers.map Json.object).weaken _ _ hvalue
      rw [value, h]
      rfl
  · next hc =>
    -- a minus sign
    have hnumber := (local_unsigned true).map Json.number
    refine localAt_of_skipBlank hc (fun _ _ h => ?_) hnumber _ _ hvalue
    rw [value, h]
    rfl
  · next c rest' _ _ _ _ _ _ _ hc =>
    -- the first digit
    split at hread
    · next hdigit =>
      have hnumber := (local_unsigned false).cons (not_takes_unsigned_nil false) c
      refine localAt_of_skipBlank hc (fun _ _ h => ?_) (hnumber.map Json.number) _ _ hvalue
      simp [value, h, hdigit]
    · cases hread

/-- **A document is read up to where it ends.** -/
theorem local_value (depth : Nat) : Local Ends (value depth) := by
  induction depth with
  | zero => exact local_value_of_inner 0 (fun _ h => nomatch h)
  | succ depth ih =>
    refine local_value_of_inner (depth + 1) ?_
    intro inner hinner
    obtain rfl := Nat.succ.inj hinner
    exact ih

/-! ## A document on its own -/

theorem whole_eq_ok_iff {reader : Reader α} {text : String} {x : α} :
    whole reader text = .ok x ↔
      ∃ rest, reader text.toList = .ok (x, rest) ∧ skipBlank rest = [] := by
  constructor
  · -- the reader is done, and only blanks are left
    intro h
    obtain ⟨⟨y, rest⟩, hread, h⟩ := exists_of_bind_ok h
    dsimp only at h
    split at h
    · next hrest =>
      cases h
      exact ⟨rest, hread, hrest⟩
    · cases h
  · rintro ⟨rest, hread, hrest⟩
    refine bind_ok hread ?_
    dsimp only
    rw [if_pos hrest]
    rfl

theorem skipBlank_append {blanks : List Char} (h : skipBlank blanks = []) (rest : List Char) :
    skipBlank (blanks ++ rest) = skipBlank rest := by
  unfold skipBlank at h ⊢
  rw [List.dropWhile_append, h]
  rfl

/-- A document on its own, put in front of what may follow a document. -/
theorem value_append {depth : Nat} {text : String} {v : Json} {after after' : List Char} {c : Char}
    (h : whole (value depth) text = .ok v) (hafter : skipBlank after = c :: after')
    (hc : Ends [c]) : ∃ rest, value depth (text.toList ++ after) = .ok (v, rest) ∧
      skipBlank rest = skipBlank after := by
  obtain ⟨blanks, hvalue, hblanks⟩ := whole_eq_ok_iff.mp h
  obtain ⟨used, htext, htakes⟩ := local_value depth _ _ _ hvalue
  have hrest := skipBlank_append hblanks after
  refine ⟨blanks ++ after, ?_, hrest⟩
  rw [htext, List.append_assoc]
  exact htakes _ (ends_of_skipBlank (hrest.trans hafter) hc)

/-! ## Passing over documents -/

theorem local_ignoredMember {reader : Reader Unit} (h : Local P reader) (s : Unit) :
    Local P (ignoredMember reader s) :=
  Local.bind local_ignoreString (fun _ => local_afterColon h) fun _ _ _ _ _ _ => trivial

theorem not_takes_ignoreNumber_nil (x : Unit) : ¬Takes Ends ignoreNumber [] x := by
  intro htakes
  cases htakes [] startsNot_nil

theorem local_ignoreValue_of_inner (depth : Nat)
    (hinner : ∀ inner, depth = inner + 1 → Local Ends (ignoreValue inner)) :
    Local Ends (ignoreValue depth) := by
  intro text x rest hread
  have hvalue := hread
  rw [ignoreValue] at hread
  -- the same branches, which give no value
  split at hread
  · cases hread
  · next hc =>
    have hword := local_word () ['u', 'l', 'l']
    refine localAt_of_skipBlank hc (fun _ _ h => ?_) hword.weaken _ _ hvalue
    rw [ignoreValue, h]
    rfl
  · next hc =>
    have hword := local_word () ['r', 'u', 'e']
    refine localAt_of_skipBlank hc (fun _ _ h => ?_) hword.weaken _ _ hvalue
    rw [ignoreValue, h]
    rfl
  · next hc =>
    have hword := local_word () ['a', 'l', 's', 'e']
    refine localAt_of_skipBlank hc (fun _ _ h => ?_) hword.weaken _ _ hvalue
    rw [ignoreValue, h]
    rfl
  · next hc =>
    refine localAt_of_skipBlank hc (fun _ _ h => ?_) local_ignoreString.weaken _ _ hvalue
    rw [ignoreValue, h]
    rfl
  · next hc =>
    refine localAt_of_skipBlank hc (fun _ _ h => ?_) local_ignoreNumber _ _ hvalue
    rw [ignoreValue, h]
    rfl
  · next hc =>
    cases depth with
    | zero => cases hread
    | succ depth =>
      have hitems := (local_items (hinner depth rfl)).map fun _ => ()
      refine localAt_of_skipBlank hc (fun _ _ h => ?_) hitems.weaken _ _ hvalue
      rw [ignoreValue, h]
      rfl
  · next hc =>
    cases depth with
    | zero => cases hread
    | succ depth =>
      have hmembers := local_series (local_ignoredMember (hinner depth rfl)) ()
      rw [← ignoreMembers_eq] at hmembers
      refine localAt_of_skipBlank hc (fun _ _ h => ?_) hmembers.weaken _ _ hvalue
      rw [ignoreValue, h]
      rfl
  · next c rest' _ _ _ _ _ _ _ hc =>
    split at hread
    · next hdigit =>
      have hnumber := local_ignoreNumber.cons not_takes_ignoreNumber_nil c
      refine localAt_of_skipBlank hc (fun _ _ h => ?_) hnumber _ _ hvalue
      simp [ignoreValue, h, hdigit]
    · cases hread

theorem local_ignoreValue (depth : Nat) : Local Ends (ignoreValue depth) := by
  induction depth with
  | zero => exact local_ignoreValue_of_inner 0 (fun _ h => nomatch h)
  | succ depth ih =>
    refine local_ignoreValue_of_inner (depth + 1) ?_
    intro inner hinner
    obtain rfl := Nat.succ.inj hinner
    exact ih

/-- Readers that agree on all texts that are not longer pass over the same members. -/
theorem ignoredMember_congr {reader reader' : Reader Unit} {text rest : List Char}
    (h : ignoredMember reader () text = .ok ((), rest)) (hcongr : ∀ t r, t.length ≤ text.length →
      reader t = .ok ((), r) → reader' t = .ok ((), r)) :
    ignoredMember reader' () text = .ok ((), rest) := by
  obtain ⟨⟨_, text'⟩, hstring, h⟩ := exists_of_bind_ok h
  obtain ⟨text'', hcolon, hvalue⟩ := afterColon_eq_ok_iff.mp h
  obtain ⟨used, rfl, _⟩ := local_ignoreString _ _ _ hstring
  have hlength := length_lt_of_skipBlank hcolon
  refine bind_ok hstring (afterColon_eq_ok_iff.mpr ⟨text'', hcolon, hcongr _ _ ?_ hvalue⟩)
  rw [List.length_append]
  omega

/-- One more container around what needs no more depth than it is long. -/
theorem ignoreValue_of_inner {depth depth' : Nat} {text rest : List Char}
    (hinner : ∀ inner, depth = inner + 1 → ∀ inner' text rest,
      ignoreValue inner text = .ok ((), rest) → text.length ≤ inner' →
        ignoreValue inner' text = .ok ((), rest))
    (h : ignoreValue depth text = .ok ((), rest)) (hlength : text.length ≤ depth') :
    ignoreValue depth' text = .ok ((), rest) := by
  rw [ignoreValue] at h
  split at h
  · cases h
  · -- words, texts and numbers do not depend on the depth
    next hc => rwa [ignoreValue, hc]
  · next hc => rwa [ignoreValue, hc]
  · next hc => rwa [ignoreValue, hc]
  · next hc => rwa [ignoreValue, hc]
  · next hc => rwa [ignoreValue, hc]
  · next text' hc =>
    -- what stands in a bracket is shorter by the bracket at least
    have htext' := length_lt_of_skipBlank hc
    rcases depth with _ | depth
    · cases h
    rcases depth' with _ | depth'
    · omega
    obtain ⟨⟨xs, rest'⟩, hitems, h⟩ := exists_of_bind_ok h
    have hitems' : items (ignoreValue depth') text' = .ok (xs, rest') := by
      refine items_congr (local_ignoreValue _) (local_ignoreValue _) hitems ?_
      intro t _ r ht hread
      exact hinner depth rfl depth' t r hread (by omega)
    rw [ignoreValue, hc]
    exact bind_ok hitems' h
  · next text' hc =>
    have htext' := length_lt_of_skipBlank hc
    rcases depth with _ | depth
    · cases h
    rcases depth' with _ | depth'
    · omega
    rw [ignoreValue, hc]
    dsimp only at h ⊢
    rw [ignoreMembers_eq] at h ⊢
    refine series_congr (local_ignoredMember (local_ignoreValue _))
      (local_ignoredMember (local_ignoreValue _)) h ?_
    intro _ t _ r ht hread
    refine ignoredMember_congr hread fun t' r' ht' hvalue => ?_
    exact hinner depth rfl depth' t' r' hvalue (by omega)
  · next c _ _ _ _ _ _ _ _ hc =>
    split at h
    · next hdigit => simpa [ignoreValue, hc, hdigit] using h
    · cases h

/-- No document nests deeper than its text is long. -/
theorem ignoreValue_of_length_le {depth depth' : Nat} {text rest : List Char}
    (h : ignoreValue depth text = .ok ((), rest)) (hlength : text.length ≤ depth') :
    ignoreValue depth' text = .ok ((), rest) := by
  induction depth generalizing depth' text rest with
  | zero =>
    refine ignoreValue_of_inner ?_ h hlength
    intro inner hinner
    cases hinner
  | succ depth ih =>
    refine ignoreValue_of_inner ?_ h hlength
    intro inner hinner inner' text rest
    obtain rfl := Nat.succ.inj hinner
    exact ih

/-- **A document that is passed over is passed over up to where it ends.** -/
theorem local_ignored : Local Ends ignored := by
  intro text _ rest hread
  obtain ⟨used, htext, htakes⟩ := local_ignoreValue _ _ _ _ hread
  refine ⟨used, htext, ?_⟩
  intro rest' hrest'
  exact ignoreValue_of_length_le (htakes rest' hrest') (Nat.le_refl _)

end Highlight.Json
