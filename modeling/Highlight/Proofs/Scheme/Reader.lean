import Highlight.Proofs.Json.Nesting
import Highlight.Scheme.Reader

/-!
# What is read of schemes

A text may mention a keyword as often as it likes. In the scheme that is read from it the keyword
stands once, because a table that is read gets its entries by `put`. The same holds of settings,
whose values nest no deeper than the reader goes there.
-/

namespace Highlight.Scheme

open Json

variable {α : Type}

theorem yields_refuse {P : α → Prop} : Yields refuse P := by
  intro text x rest hread
  unfold refuse at hread
  split at hread
  · cases hread
  · cases hread
  · cases hread
  · obtain ⟨_, _, hread⟩ := exists_of_bind_ok hread
    cases hread

theorem yields_objectOf {entry : α → String → Reader α} {start : α} {P : α → Prop}
    (hentry : ∀ x name, P x → Yields (entry x name) P) (hstart : P start) :
    Yields (objectOf entry start) P := by
  intro text x rest hread
  unfold objectOf at hread
  split at hread
  · exact yields_members hentry hstart _ _ _ hread
  · exact yields_refuse _ _ _ hread

/-- A table is read with distinct names and with values that nest no deeper than `depth`. -/
theorem yields_tableOf {depth : Nat} {ofJson : Json → α} {P : α → Prop}
    (h : ∀ doc, Within depth doc → P (ofJson doc)) :
    Yields (tableOf depth ofJson) (Table.Each P) := by
  refine yields_objectOf (fun t name ht => ?_) .nil
  refine yields_afterColon fun text t' rest hread => ?_
  obtain ⟨⟨v, _⟩, hv, hread⟩ := exists_of_bind_ok hread
  obtain ⟨rfl, _⟩ := Prod.mk.inj (Except.ok.inj hread)
  exact ht.put name (h v (yields_value depth _ _ _ hv))

/-- What holds of a draft while it is read. -/
structure Draft.Sound (d : Draft) : Prop where
  keywords : ∀ keywords ∈ d.keywords, keywords.names.Nodup
  settings : ∀ settings ∈ d.settings, settings.Each (Within (maxDepth - 2))

theorem yields_once {old : Option α} {reader : Reader α} {set : α → Draft} {P : α → Prop}
    {Q : Draft → Prop} (hreader : Yields reader P) (hset : ∀ v, P v → Q (set v)) :
    Yields (once old reader set) Q := by
  unfold once
  split
  · intro text d rest hread
    cases hread
  · refine yields_afterColon ?_
    intro text d rest hread
    obtain ⟨⟨v, text'⟩, hv, hread⟩ := exists_of_bind_ok hread
    obtain ⟨rfl, _⟩ := Prod.mk.inj (Except.ok.inj hread)
    exact hset v (hreader _ _ _ hv)

/-- **Every member keeps what holds of a draft.** -/
theorem yields_member {d : Draft} (hd : d.Sound) (name : String) :
    Yields (member d name) Draft.Sound := by
  -- most members leave both tables as they are
  have hkeep : ∀ {β : Type} {old : Option β} {reader : Reader β} {set : β → Draft},
      (∀ v, (set v).keywords = d.keywords ∧ (set v).settings = d.settings) →
        Yields (once old reader set) Draft.Sound := by
    intro β old reader set hset
    refine yields_once (P := fun _ => True) (fun _ _ _ _ => trivial) fun v _ => ?_
    obtain ⟨hkeywords, hsettings⟩ := hset v
    exact ⟨hkeywords ▸ hd.keywords, hsettings ▸ hd.settings⟩
  unfold member
  split
  · -- the keywords
    refine yields_once (yields_tableOf (P := fun _ => True) fun _ _ => trivial) fun v hv => ?_
    refine ⟨fun keywords hk => ?_, hd.settings⟩
    obtain rfl := Option.some.inj hk
    exact hv.nodup
  · -- includes, extensions and the truth of autocompletion
    iterate 3
      split
      · exact hkeep fun _ => ⟨rfl, rfl⟩
    split
    · -- the settings
      refine yields_once (yields_tableOf fun _ hdoc => hdoc) fun v hv => ?_
      refine ⟨hd.keywords, fun settings hs => ?_⟩
      obtain rfl := Option.some.inj hs
      exact hv
    split
    · exact hkeep fun _ => ⟨rfl, rfl⟩
    -- a listed member is not among the two tables
    refine yields_afterColon ?_
    intro text d' rest hread
    obtain ⟨⟨v, text'⟩, _, hread⟩ := exists_of_bind_ok hread
    obtain ⟨rfl, _⟩ := Prod.mk.inj (Except.ok.inj hread)
    split
    · exact ⟨hd.keywords, hd.settings⟩
    · exact hd

theorem exists_draft_of_parse {text : String} {s : Scheme} (h : parse text = .ok s) :
    ∃ d : Draft, d.Sound ∧ s.keywords = d.keywords.getD [] ∧ s.settings = d.settings.getD [] := by
  obtain ⟨⟨s', rest⟩, hread, h⟩ := exists_of_bind_ok h
  obtain ⟨⟨d, rest'⟩, hdraft, hread⟩ := exists_of_bind_ok hread
  obtain ⟨s'', hscheme, hread⟩ := exists_of_bind_ok hread
  have hsound : d.Sound := by
    refine yields_objectOf (fun _ name hd => yields_member hd name) ?_ _ _ _ hdraft
    exact ⟨fun _ hk => (by cases hk), fun _ hs => (by cases hs)⟩
  obtain ⟨lists, _, hscheme⟩ := exists_of_bind_ok hscheme
  obtain rfl := Except.ok.inj hscheme
  obtain ⟨rfl, _⟩ := Prod.mk.inj (Except.ok.inj hread)
  dsimp only at h
  split at h
  · obtain rfl := Except.ok.inj h
    exact ⟨d, hsound, rfl, rfl⟩
  · cases h

/-- A scheme that was read has no keyword twice. -/
theorem nodup_keywords_of_parse {text : String} {s : Scheme} (h : parse text = .ok s) :
    s.keywords.names.Nodup := by
  obtain ⟨d, hd, hkeywords, _⟩ := exists_draft_of_parse h
  rw [hkeywords]
  cases hk : d.keywords with
  | none => exact List.nodup_nil
  | some keywords => exact hd.keywords keywords hk

/-- Nor has it a setting twice, and its settings leave two containers of the depth to others. -/
theorem within_settings_of_parse {text : String} {s : Scheme} (h : parse text = .ok s) :
    s.settings.Each (Within (maxDepth - 2)) := by
  obtain ⟨d, hd, _, hsettings⟩ := exists_draft_of_parse h
  rw [hsettings]
  cases hs : d.settings with
  | none => exact .nil
  | some settings => exact hd.settings settings hs

end Highlight.Scheme
