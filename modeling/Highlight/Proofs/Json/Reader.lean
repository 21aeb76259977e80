import Highlight.Json.Reader
import Highlight.Proofs.Success

/-!
# What comes out of a reader

A reader may take off any text, but what it makes of the text often has a property all the same.
`Yields` says so, and the loops hand the property on: what holds of every item holds of all items,
and if one more member keeps what holds of that which was gathered so far, then it holds of the
whole.
-/

namespace Highlight.Json

variable {α β σ : Type}

/-- Whatever the text, `P` holds of what is read from it. -/
def Yields (reader : Reader α) (P : α → Prop) : Prop :=
  ∀ text x rest, reader text = .ok (x, rest) → P x

theorem yields_afterColon {reader : Reader α} {P : α → Prop} (h : Yields reader P) :
    Yields (afterColon reader) P := by
  intro text x rest hread
  unfold afterColon at hread
  split at hread
  · cases hread
  · exact h _ x rest hread
  · cases hread

/-- What holds of every item that is read holds of all items together. -/
theorem yields_itemsFrom {item : Reader α} {P : α → Prop} (h : Yields item P) (bound : Nat) :
    Yields (itemsFrom item bound) fun xs => ∀ x ∈ xs, P x := by
  induction bound with
  | zero =>
    intro text xs rest hread
    cases hread
  | succ bound ih =>
    intro text xs rest hread
    rw [itemsFrom] at hread
    obtain ⟨⟨x, text₁⟩, hx, hread⟩ := exists_of_bind_ok hread
    have hfirst : P x := h _ _ _ hx
    dsimp only at hread
    split at hread
    · cases hread
    · -- the closing bracket
      obtain ⟨rfl, _⟩ := Prod.mk.inj (Except.ok.inj hread)
      exact List.forall_mem_singleton.mpr hfirst
    · -- a comma, and the later items
      split at hread
      · cases hread
      · cases hread
      · obtain ⟨⟨xs', text₂⟩, hxs, hread⟩ := exists_of_bind_ok hread
        obtain ⟨rfl, _⟩ := Prod.mk.inj (Except.ok.inj hread)
        exact List.forall_mem_cons.mpr ⟨hfirst, ih _ _ _ hxs⟩
    · cases hread

theorem yields_items {item : Reader α} {P : α → Prop} (h : Yields item P) :
    Yields (items item) fun xs => ∀ x ∈ xs, P x := by
  intro text xs rest hread
  unfold items at hread
  split at hread
  · cases hread
  · obtain ⟨rfl, _⟩ := Prod.mk.inj (Except.ok.inj hread)
    exact List.forall_mem_nil _
  · exact yields_itemsFrom h _ _ _ _ hread

section Members

variable {member : σ → String → Reader σ} {P : σ → Prop}

theorem yields_named (hmember : ∀ s name, P s → Yields (member s name) P) {s : σ} (hs : P s) :
    Yields (named member s) P := by
  intro text s' rest hread
  obtain ⟨⟨name, text'⟩, _, hread⟩ := exists_of_bind_ok hread
  exact hmember s _ hs text' s' rest hread

theorem yields_membersFrom (hmember : ∀ s name, P s → Yields (member s name) P) (bound : Nat)
    {s : σ} (hs : P s) : Yields (membersFrom member bound s) P := by
  induction bound generalizing s with
  | zero =>
    intro text s' rest hread
    cases hread
  | succ bound ih =>
    intro text s' rest hread
    rw [membersFrom] at hread
    obtain ⟨⟨s₁, text₁⟩, hnamed, hread⟩ := exists_of_bind_ok hread
    have hs₁ : P s₁ := yields_named hmember hs _ _ _ hnamed
    dsimp only at hread
    split at hread
    · cases hread
    · -- the closing brace
      obtain ⟨rfl, _⟩ := Prod.mk.inj (Except.ok.inj hread)
      exact hs₁
    · -- a comma, and the later members
      split at hread
      · cases hread
      · exact ih hs₁ _ _ _ hread
      · cases hread
    · cases hread

/-- What every member keeps holds of all members together. -/
theorem yields_members (hmember : ∀ s name, P s → Yields (member s name) P) {s : σ} (hs : P s) :
    Yields (members member s) P := by
  intro text s' rest hread
  unfold members at hread
  split at hread
  · cases hread
  · obtain ⟨rfl, _⟩ := Prod.mk.inj (Except.ok.inj hread)
    exact hs
  · exact yields_membersFrom hmember _ hs _ _ _ hread
  · cases hread

end Members

end Highlight.Json
