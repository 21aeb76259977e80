import Highlight.Proofs.SyntaxFiles.Agreement

/-!
# What is kept of a theme

A theme that is extended keeps its entries and gets one more for each rule behind them. All new
entries have a scope, so the first entry without one, from which the base colours are read, is the
one it was before; and a theme that has none gets none. Of the other members only the name is set.
-/

namespace Highlight.SyntaxFiles

/-- The members of a table under other names, in order. -/
def membersBut (names : List String) (members : Table Json) : Table Json :=
  members.filter fun e => e.1 ∉ names

theorem membersBut_put {names : List String} {name : String} (h : name ∈ names)
    (members : Table Json) (v : Json) :
    membersBut names (members.put name v) = membersBut names members :=
  Table.filter_put (fun _ => by simpa using h) members v

/-- An entry of a theme stands for a rule of a scheme, under its published scope. -/
structure StandsFor (scheme : String) (rule : Rule) (entry : Json) : Prop where
  name : entry.textOf? "name" = some rule.identifier
  scope : entry.textOf? "scope" = some (rule.identifier ++ "." ++ scheme)
  look : Shows entry rule

theorem standsFor_addedEntries (scheme : String) (rules : List Rule) :
    List.Forall₂ (StandsFor scheme) rules (addedEntries scheme rules) := by
  rw [addedEntries, List.forall₂_map_right_iff, List.forall₂_same]
  exact fun rule _ => ⟨rfl, rfl, shows_themeEntry rule _⟩

theorem extendTheme_extendTheme (theme : Json) (scheme : String) (rules later : List Rule) :
    extendTheme (extendTheme theme scheme rules) scheme later
      = extendTheme theme scheme (rules ++ later) := by
  have hname : Table.get? (((theme.object?.getD []).put "name" (.string scheme)).put "settings"
      (.array ((theme.itemsOf? "settings").getD [] ++ addedEntries scheme rules))) "name"
      = some (.string scheme) := by
    rw [Table.get?_put, if_neg (by decide), Table.get?_put, if_pos rfl]
  rw [extendTheme_eq (extendTheme theme scheme rules), itemsOf?_extendTheme, extendTheme_eq,
    extendTheme_eq, Json.object?, Option.getD_some, Option.getD_some, Table.put_of_get? hname,
    Table.put_put, List.append_assoc, addedEntries, addedEntries, addedEntries, List.map_append]

/-! ## Base colours -/

/-- An entry of a theme that holds for everything. -/
def Unscoped (entry : Json) : Bool := (entry.member? "scope").isNone

theorem ofTheme?_eq (theme : Json) : BaseColours.ofTheme? theme
    = (theme.itemsOf? "settings").bind fun entries =>
        (entries.find? Unscoped).bind fun entry =>
          (entry.member? "settings").bind Json.object? := by
  rw [Json.itemsOf?, Option.bind_assoc]
  rfl

theorem find?_addedEntries (scheme : String) (rules : List Rule) :
    (addedEntries scheme rules).find? Unscoped = none := by
  rw [addedEntries, List.find?_map, Option.map_eq_none_iff, List.find?_eq_none]
  exact fun rule _ => Bool.false_ne_true

/-- Entries with a scope hide nothing, and are not taken for others. -/
theorem ofTheme?_extendTheme (theme : Json) (scheme : String) (rules : List Rule) :
    BaseColours.ofTheme? (extendTheme theme scheme rules) = BaseColours.ofTheme? theme := by
  rw [ofTheme?_eq, ofTheme?_eq, itemsOf?_extendTheme, Option.bind_some, List.find?_append,
    find?_addedEntries, Option.or_none]
  cases theme.itemsOf? "settings" <;> rfl

/--
**A theme keeps what it has when it is extended**, whatever document it is. Its entries come first,
and then one for each rule; its other members but for the name are the same in the same order. To
extend it by more rules later is to extend it by all at once. Its base colours are the same
afterwards, and those of a new theme are the ones that it was made with.
-/
theorem extendTheme_keeps (theme : Json) (name : String) (rules later : List Rule) :
    (∃ (members : Table Json) (added : List Json), extendTheme theme name rules = .object members ∧
      members.get? "name" = some (.string name) ∧
      members.get? "settings"
        = some (.array ((theme.itemsOf? "settings").getD [] ++ added)) ∧
      List.Forall₂ (StandsFor name) rules added ∧
      membersBut ["name", "settings"] members
        = membersBut ["name", "settings"] (theme.object?.getD [])) ∧
    extendTheme (extendTheme theme name rules) name later
      = extendTheme theme name (rules ++ later) ∧
    BaseColours.ofTheme? (extendTheme theme name rules) = BaseColours.ofTheme? theme ∧
    ∀ (scheme : Scheme) (directory : Path) (base : Option BaseColours) (ids : Ids),
      BaseColours.ofTheme? (ofRules scheme rules directory base ids).theme
        = some (base.getD .default) := by
  refine ⟨⟨_, addedEntries name rules, extendTheme_eq theme name rules, ?_, ?_,
    standsFor_addedEntries name rules, ?_⟩, extendTheme_extendTheme theme name rules later,
    ofTheme?_extendTheme theme name rules, fun scheme directory base ids => rfl⟩
  · rw [Table.get?_put, if_neg (by decide), Table.get?_put, if_pos rfl]
  · rw [Table.get?_put, if_pos rfl]
  · rw [membersBut_put (by simp), membersBut_put (by simp)]

end Highlight.SyntaxFiles
