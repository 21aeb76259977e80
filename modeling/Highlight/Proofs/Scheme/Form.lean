import Highlight.Proofs.Json.Form
import Highlight.Proofs.Scheme.Joined

/-!
# The members of a scheme have the form of members

Each field of a scheme asks for a document of its own shape, and what it reads has the form of a
document (`Formed`). The texts of a derivation that is given as an array are counted, and so read
by a loop of their own; that they are items too is told from its end.
-/

namespace Highlight.Scheme

open Json

variable {α : Type} {input rest : List Char}

theorem formed_text : Formed text := by
  intro input s rest hread
  unfold text at hread
  split at hread
  · next hquote =>
    obtain ⟨⟨s', _⟩, hs, hread⟩ := exists_of_bind_ok hread
    cases hread
    exact ignored_of_string hquote hs
  · exact absurd hread refuse_ne_ok

theorem formed_truth : Formed truth := by
  intro input b rest hread
  unfold truth at hread
  split at hread
  · next hc =>
    obtain ⟨_, hword, hread⟩ := exists_of_bind_ok hread
    cases hread
    exact ignored_of_word hc (by simp) hword
  · next hc =>
    obtain ⟨_, hword, hread⟩ := exists_of_bind_ok hread
    cases hread
    exact ignored_of_word hc (by simp) hword
  · exact absurd hread refuse_ne_ok

theorem formed_texts : Formed texts := by
  intro input ss rest hread
  unfold texts at hread
  split at hread
  · next hbracket => exact ignored_of_items local_text.weaken formed_text hbracket hread
  · exact absurd hread refuse_ne_ok

/-- An object has the form of a document if what is read of its members has. -/
theorem ignored_of_members {entry : α → String → Reader α} {start x : α} {inner : List Char}
    (hlocal : ∀ x name, Local Ends (entry x name)) (hentry : FormedEntry entry)
    (hbrace : skipBlank input = '{' :: inner) (h : members entry start inner = .ok (x, rest)) :
    ignored input = .ok ((), rest) := by
  rw [members_eq] at h
  exact ignored_of_series (local_named hlocal) hentry.named hbrace h

theorem formed_objectOf {entry : α → String → Reader α}
    (hlocal : ∀ x name, Local Ends (entry x name)) (hentry : FormedEntry entry) (start : α) :
    Formed (objectOf entry start) := by
  intro input x rest hread
  obtain ⟨inner, hbrace, h⟩ := objectOf_eq_ok_iff.mp hread
  exact ignored_of_members hlocal hentry hbrace h

theorem formedEntry_entry (depth : Nat) (ofJson : Json → α) : FormedEntry (entry depth ofJson) := by
  intro t name input t' rest hread
  obtain ⟨input', hcolon, hread⟩ := afterColon_eq_ok_iff.mp hread
  obtain ⟨⟨v, _⟩, hv, hread⟩ := exists_of_bind_ok hread
  cases hread
  exact afterColon_eq_ok_iff.mpr ⟨input', hcolon, formed_value depth _ _ _ hv⟩

theorem formed_tableOf (depth : Nat) (ofJson : Json → α) : Formed (tableOf depth ofJson) :=
  formed_objectOf (local_entry depth ofJson) (formedEntry_entry depth ofJson) []

/-! ## Derivations -/

/-- Texts that are counted, the first of which is there, are items up to the bracket. -/
theorem items_of_closing_next {n : Nat} {ss : List String}
    (h : closing (textsUpTo.next n) input = .ok (ss, rest)) : Items text input ss rest := by
  induction n generalizing input ss with
  | zero =>
    -- no more texts are read, so that the bracket comes now
    obtain ⟨s, ss', mid, rfl, hs, hrest⟩ := closing_next_eq_ok_iff.mp h
    obtain ⟨_, hnone, hbracket⟩ := closing_eq_ok_iff.mp hrest
    rw [textsUpTo] at hnone
    cases hnone
    exact .last hs hbracket
  | succ n ih =>
    obtain ⟨s, ss', mid, rfl, hs, hrest⟩ := closing_next_eq_ok_iff.mp h
    obtain ⟨last, hrest, hbracket⟩ := closing_eq_ok_iff.mp hrest
    rw [textsUpTo] at hrest
    split at hrest
    · cases hrest
    · next hclose =>
      -- the bracket comes at once
      cases hrest
      rw [skipBlank_of_not_blank (by decide)] at hbracket
      exact .last hs (hclose.trans hbracket)
    · next c rest₁ hne hc =>
      rw [if_neg (by decide)] at hrest
      -- a comma, which a text has to follow
      split at hrest
      · next hcomma =>
        subst hcomma
        split at hrest
        · cases hrest
        · cases hrest
        · next hnil hopen =>
          cases hfirst : skipBlank rest₁ with
          | nil => exact (hnil hfirst).elim
          | cons d rest₂ =>
            rw [hfirst] at hrest
            have hmore := ih (closing_eq_ok_iff.mpr ⟨last, hrest, hbracket⟩)
            exact .more hs hc hfirst (fun hd => hopen rest₂ (hd ▸ hfirst)) hmore
      · cases hrest

theorem items_of_closing {n : Nat} {ss : List String}
    (h : closing (textsUpTo n true) input = .ok (ss, rest)) :
    items text input = .ok (ss, rest) := by
  rw [items_eq_ok_iff local_text.weaken]
  obtain ⟨last, hss, hbracket⟩ := closing_eq_ok_iff.mp h
  cases n with
  | zero =>
    rw [textsUpTo] at hss
    cases hss
    exact .inl ⟨hbracket, rfl⟩
  | succ n =>
    rw [textsUpTo] at hss
    split at hss
    · cases hss
    · next hclose =>
      -- there is no text at all
      cases hss
      rw [skipBlank_of_not_blank (by decide)] at hbracket
      exact .inl ⟨hclose.trans hbracket, rfl⟩
    · next c rest₁ hne hc =>
      rw [if_pos rfl] at hss
      have hitems := items_of_closing_next (closing_eq_ok_iff.mpr ⟨last, hss, hbracket⟩)
      exact .inr ⟨c, rest₁, hc, hne, hitems⟩

theorem formedEntry_derivationMember : FormedEntry derivationMember := by
  intro fields name input fields' rest hread
  unfold derivationMember at hread
  -- a field may come up once
  cases hfield : derivationField? name with
  | some field =>
    simp only [hfield] at hread
    split at hread
    · cases hread
    · obtain ⟨input', hcolon, hread⟩ := afterColon_eq_ok_iff.mp hread
      obtain ⟨⟨s, _⟩, hs, hread⟩ := exists_of_bind_ok hread
      cases hread
      exact afterColon_eq_ok_iff.mpr ⟨input', hcolon, formed_text _ _ _ hs⟩
  | none =>
    -- an unknown member is passed over
    simp only [hfield] at hread
    obtain ⟨input', hcolon, hread⟩ := afterColon_eq_ok_iff.mp hread
    obtain ⟨⟨_, _⟩, hignored, hread⟩ := exists_of_bind_ok hread
    cases hread
    exact afterColon_eq_ok_iff.mpr ⟨input', hcolon, hignored⟩

theorem formed_derivationReader : Formed derivationReader := by
  intro input d rest hread
  unfold derivationReader at hread
  split at hread
  · next hc =>
    -- `null`
    obtain ⟨_, hword, hread⟩ := exists_of_bind_ok hread
    cases hread
    exact ignored_of_word hc (by simp) hword
  · next hc =>
    -- an array, whose texts are the fields in their order
    obtain ⟨⟨d', _⟩, harray, hread⟩ := exists_of_bind_ok hread
    cases hread
    obtain ⟨fields, _, hfields⟩ := derivationOfArray_eq_ok_iff.mp harray
    exact ignored_of_items local_text.weaken formed_text hc (items_of_closing hfields)
  · next hc =>
    -- an object
    obtain ⟨⟨d', _⟩, hobject, hread⟩ := exists_of_bind_ok hread
    cases hread
    obtain ⟨⟨fields, _⟩, hmembers, hobject⟩ := exists_of_bind_ok hobject
    dsimp only at hobject
    split at hobject
    · cases hobject
      exact ignored_of_members local_derivationMember formedEntry_derivationMember hc hmembers
    · cases hobject
  · exact absurd hread refuse_ne_ok

/-! ## Members -/

theorem formed_once {old : Option α} {reader : Reader α} {set : α → Draft} {d : Draft}
    (hreader : Formed reader) (h : once old reader set input = .ok (d, rest)) :
    afterColon ignored input = .ok ((), rest) := by
  obtain ⟨_, v, hv, _⟩ := once_eq_ok_iff.mp h
  exact hreader.afterColon hv

/-- **Whatever is read as a member of a scheme has the form of a member.** -/
theorem formedEntry_member : FormedEntry member := by
  intro d name input d₁ rest h
  -- one name after the other, and the rest is read as plain JSON
  unfold member at h
  split at h
  · exact formed_once (formed_tableOf _ _) h
  split at h
  · exact formed_once formed_texts h
  split at h
  · exact formed_once formed_texts h
  split at h
  · exact formed_once formed_truth h
  split at h
  · exact formed_once (formed_tableOf _ _) h
  split at h
  · exact formed_once formed_derivationReader h
  · obtain ⟨input', hcolon, h⟩ := afterColon_eq_ok_iff.mp h
    obtain ⟨⟨v, _⟩, hv, h⟩ := exists_of_bind_ok h
    cases h
    exact afterColon_eq_ok_iff.mpr ⟨input', hcolon, formed_value _ _ _ _ hv⟩

end Highlight.Scheme
