import Highlight.Proofs.SyntaxFiles.Agreement
import Highlight.Proofs.Table.Overlay

/-!
# Which setting counts

The settings of a scheme are laid over those that there are: over the ones that are made for it, or
over the document that it extends. In new settings the scheme has the last word on everything; in
extended ones the theme does not ask it. Since a theme that is put last might have been a setting of
the scheme (`Table.put_putAll`), both are one table laid over another. No setting of a scheme that
was read comes up twice (`Scheme.within_settings_of_parse`).
-/

namespace Highlight.SyntaxFiles

variable {own : Table Json}

/-- The members of extended settings: the theme joins the settings that are laid over. -/
def extendedMembers (settings : Json) (own : Table Json) (theme : String) : Table Json :=
  Table.putAll (settings.object?.getD []) (own.put "color_scheme" (.string theme))

theorem extendSettings_eq (h : own.names.Nodup) (settings : Json) (theme : String) :
    extendSettings settings own theme = .object (extendedMembers settings own theme) := by
  rw [extendSettings, Table.put_putAll h, extendedMembers]

theorem overlaid_extendedMembers (h : own.names.Nodup) (settings : Json) (theme : String) :
    Table.Overlaid (settings.object?.getD []) (own.put "color_scheme" (.string theme))
      (extendedMembers settings own theme) :=
  Table.overlaid_putAll (Table.nodup_names_put h _ _) _

theorem get?_extendedMembers (h : own.names.Nodup) (settings : Json) (theme name : String) :
    (extendedMembers settings own theme).get? name
      = if name = "color_scheme" then some (.string theme)
        else (own.get? name).or (settings.member? name) := by
  rw [(overlaid_extendedMembers h settings theme).value, Table.get?_put, Json.get?_members]
  split
  · next hname => rw [if_pos hname.symm, Option.some_or]
  · next hname => rw [if_neg (Ne.symm hname)]

/-- A theme that nothing has a word on is the last of the names. -/
theorem names_extendedMembers (h : own.names.Nodup) (settings : Json) (theme : String) :
    let base := Table.names (settings.object?.getD [])
    (extendedMembers settings own theme).names = base ++ own.names.filter (· ∉ base)
      ++ if "color_scheme" ∈ base ∨ "color_scheme" ∈ own.names then [] else ["color_scheme"] := by
  intro base
  rw [(overlaid_extendedMembers h settings theme).order, Table.names_put]
  by_cases hown : "color_scheme" ∈ own.names
  · rw [if_pos hown, if_pos (Or.inr hown), List.append_nil]
  · rw [if_neg hown, List.filter_append, ← List.append_assoc]
    by_cases hbase : "color_scheme" ∈ base
    · rw [if_pos (Or.inl hbase), List.filter_cons_of_neg (by simpa using hbase), List.filter_nil]
    · rw [if_neg (not_or.mpr ⟨hbase, hown⟩), List.filter_cons_of_pos (by simpa using hbase),
        List.filter_nil]

theorem extendSettings_extendSettings (h : own.names.Nodup) (settings : Json) (theme : String) :
    extendSettings (extendSettings settings own theme) own theme
      = extendSettings settings own theme := by
  have hagain : extendedMembers (.object (extendedMembers settings own theme)) own theme
      = extendedMembers settings own theme :=
    Table.putAll_putAll (Table.nodup_names_put h _ _) _
  rw [extendSettings_eq h settings, extendSettings_eq h, hagain]

/--
**The settings of a scheme come first.** New settings are the extensions and the theme with those of
the scheme laid over. Extended settings have the theme, whoever else names one; every other setting
is the scheme's or else that of the document, which has none if it is no object. They are in the
order of the document, then of the scheme, and the theme is the last one if it is new to both. To
extend settings once more changes nothing.
-/
theorem settings_precedence {scheme : Scheme} (h : scheme.settings.names.Nodup) (directory : Path)
    (settings : Json) (theme : String) :
    (∃ result, newSettings scheme directory = .object result ∧
      Table.Overlaid [("extensions", textArray scheme.extensions),
        ("color_scheme", .string (themePath directory scheme.name))] scheme.settings result) ∧
    (∃ result : Table Json, extendSettings settings scheme.settings theme = .object result ∧
      (∀ name, result.get? name = if name = "color_scheme" then some (.string theme)
        else (scheme.settings.get? name).or (settings.member? name)) ∧
      let base := Table.names (settings.object?.getD [])
      result.names = base ++ scheme.settings.names.filter (· ∉ base)
        ++ if "color_scheme" ∈ base ∨ "color_scheme" ∈ scheme.settings.names then []
          else ["color_scheme"]) ∧
    extendSettings (extendSettings settings scheme.settings theme) scheme.settings theme
      = extendSettings settings scheme.settings theme :=
  ⟨⟨_, rfl, Table.overlaid_putAll h _⟩,
    ⟨_, extendSettings_eq h settings theme, get?_extendedMembers h settings theme,
      names_extendedMembers h settings theme⟩,
    extendSettings_extendSettings h settings theme⟩

/-- A scheme that names a theme of its own. -/
def withOwnTheme : Scheme where
  name := "mine"
  extensions := ["txt"]
  settings := [("font_size", .string "12"), ("color_scheme", .string "own")]

/-- The theme that the scheme names counts in new settings only. -/
theorem settings_precedence_of_own_theme :
    withOwnTheme.settings.names.Nodup ∧
    (∃ result : Table Json, newSettings withOwnTheme ⟨"/out"⟩ = .object result ∧
      result.get? "color_scheme" = some (.string "own") ∧
      result.names = ["extensions", "color_scheme", "font_size"]) ∧
    ∃ result : Table Json, extendSettings
        (.object [("caret_style", .string "wide"), ("font_size", .string "10")])
        withOwnTheme.settings "/out/mine" = .object result ∧
      result.get? "color_scheme" = some (.string "/out/mine") ∧
      result.get? "font_size" = some (.string "12") ∧
      result.get? "caret_style" = some (.string "wide") ∧
      result.names = ["caret_style", "font_size", "color_scheme"] := by
  have hnodup : withOwnTheme.settings.names.Nodup := by decide
  obtain ⟨⟨made, hmade, hover⟩, ⟨result, hresult, hvalue, hnames⟩, _⟩ :=
    settings_precedence hnodup ⟨"/out"⟩
      (.object [("caret_style", .string "wide"), ("font_size", .string "10")]) "/out/mine"
  refine ⟨hnodup, ⟨made, hmade, ?_, ?_⟩, result, hresult, ?_, ?_, ?_, ?_⟩
  · rw [hover.value]
    rfl
  · rw [hover.order]
    decide
  · rw [hvalue]
    rfl
  · rw [hvalue]
    rfl
  · rw [hvalue]
    rfl
  · rw [hnames]
    decide

end Highlight.SyntaxFiles
