import Highlight.Proofs.Rule.Batch
import Highlight.Proofs.SyntaxFiles.Extending
import Highlight.Proofs.SyntaxFiles.Grammar

/-!
# How the documents of a scheme fit together

The grammar finds what a rule matches and calls it by a scope, the theme gives that scope a look,
and the settings name the file of the theme. `AgreeNew` says so of new documents, where patterns
and entries stand in the order of the rules, and `AgreeExtended` of extended ones, where the rules
are kept by identifier and their entries come after the old ones. What holds the two together is
that no two rules of a batch share an identifier.

The settings name the theme's file by the text that is shown for its path. A path that is no text
is not named that way (`settings_name_no_file`).
-/

namespace Highlight

/-- The text of a member, if it is one. -/
def Json.textOf? (doc : Json) (name : String) : Option String := (doc.member? name).bind string?

/-- The items of a member, if it is an array. -/
def Json.itemsOf? (doc : Json) (name : String) : Option (List Json) :=
  (doc.member? name).bind array?

/-- What is no object has no members. -/
theorem Json.get?_members (doc : Json) (name : String) :
    Table.get? (doc.object?.getD []) name = doc.member? name := by
  rw [Json.member?]
  cases doc.object? <;> rfl

namespace SyntaxFiles

/-- An entry of a theme has the colours and the font style of a rule, and no other settings. -/
def Shows (entry : Json) (rule : Rule) : Prop :=
  ∃ look : Table Json, entry.member? "settings" = some (.object look) ∧
    look.get? "foreground" = rule.foreground.map (fun c => .string c.text) ∧
    look.get? "background" = rule.background.map (fun c => .string c.text) ∧
    look.get? "fontStyle" = rule.font.word?.map .string ∧
    ∀ name ∈ look.names, name ∈ ["foreground", "background", "fontStyle"]

/--
The patterns of a new grammar and the entries of a new theme after the first one stand for the rules
one by one. Each pattern has its scope to itself and shares it with the entry at its place.
-/
def AgreeNew (files : SyntaxFiles) (rules : List Rule) : Prop :=
  ∃ patterns entries, files.grammar.itemsOf? "patterns" = some patterns ∧
    files.theme.itemsOf? "settings" = some entries ∧
    patterns.length = rules.length ∧ entries.length = rules.length + 1 ∧
    (∀ i rule, rules[i]? = some rule → ∃ pattern entry scope,
      patterns[i]? = some pattern ∧ entries[i + 1]? = some entry ∧
      pattern.textOf? "match" = some rule.pattern ∧ pattern.textOf? "name" = some scope ∧
      entry.textOf? "scope" = some scope ∧ Shows entry rule) ∧
    (patterns.map (·.textOf? "name")).Nodup

/--
The theme has one more entry than before for each rule, and among these just one with the scope
under which the grammar keeps the rule.
-/
def AgreeExtended (files : SyntaxFiles) (theme : Json) (rules : List Rule) : Prop :=
  ∃ added, files.theme.itemsOf? "settings" = some ((theme.itemsOf? "settings").getD [] ++ added) ∧
    added.length = rules.length ∧
    ∀ rule ∈ rules, ∃ kept scope entry,
      definition? files.grammar rule.identifier = some kept ∧
      kept.textOf? "match" = some rule.pattern ∧ kept.textOf? "name" = some scope ∧
      added.filter (·.textOf? "scope" = some scope) = [entry] ∧ Shows entry rule

variable {rules : List Rule} {rule : Rule} {scheme : Scheme} {directory : Path}

/-! ## Scopes and looks -/

theorem shows_themeEntry (rule : Rule) (scope : String) : Shows (themeEntry rule scope) rule := by
  refine ⟨_, rfl, ?_⟩
  cases rule.foreground <;> cases rule.background <;> cases rule.font.word? <;>
    simp [Table.get?, Table.names]

theorem nodup_publishedScopes (h : (rules.map (·.identifier)).Nodup) (name : String) :
    (rules.map (publishedScope · name)).Nodup := by
  have hscopes : rules.map (publishedScope · name)
      = (rules.map (·.identifier)).map (· ++ "." ++ name) := by
    rw [List.map_map]
    rfl
  rw [hscopes]
  refine h.map fun x y hxy => ?_
  have hlist := congrArg String.toList hxy
  exact String.toList_inj.mp (by simpa using hlist)

theorem filter_eq_singleton {α β : Type} [DecidableEq β] {f : α → β} {l : List α} {a : α}
    (h : (l.map f).Nodup) (ha : a ∈ l) : l.filter (fun b => f b = f a) = [a] := by
  induction l with
  | nil => cases ha
  | cons b l ih =>
    rw [List.map_cons, List.nodup_cons] at h
    rcases List.mem_cons.mp ha with rfl | ha
    · rw [List.filter_cons_of_pos (by simp), List.filter_eq_nil_iff.mpr]
      intro b hb
      rw [decide_eq_true_eq]
      exact fun heq => h.1 (heq ▸ List.mem_map_of_mem hb)
    · have hne : f b ≠ f a := fun heq => h.1 (heq ▸ List.mem_map_of_mem ha)
      rw [List.filter_cons_of_neg (by simpa using hne), ih h.2 ha]

/-! ## New and extended documents -/

/-- The entries that rules add to a theme. -/
def addedEntries (name : String) (rules : List Rule) : List Json :=
  rules.map fun rule => themeEntry rule (publishedScope rule name)

/-- A theme that is extended is named, and its entries are followed by those of the rules. -/
theorem extendTheme_eq (theme : Json) (name : String) (rules : List Rule) :
    extendTheme theme name rules
      = .object ((Table.put (theme.object?.getD []) "name" (.string name)).put "settings"
          (.array ((theme.itemsOf? "settings").getD [] ++ addedEntries name rules))) := by
  have hold : ((Table.put (theme.object?.getD []) "name" (.string name)).get? "settings")
      = theme.member? "settings" := by
    rw [Table.get?_put, if_neg (by decide), Json.get?_members]
  rw [extendTheme, hold]
  rfl

/-- The entries of a theme that is extended come first. -/
theorem itemsOf?_extendTheme (theme : Json) (name : String) (rules : List Rule) :
    (extendTheme theme name rules).itemsOf? "settings"
      = some ((theme.itemsOf? "settings").getD [] ++ addedEntries name rules) := by
  rw [extendTheme_eq, Json.itemsOf?, Json.member?_object, Table.get?_put, if_pos rfl]
  rfl

theorem textOf?_newSettings (h : scheme.settings.get? "color_scheme" = none) :
    (newSettings scheme directory).textOf? "color_scheme"
      = some (Kind.theme.file directory scheme.name).text := by
  have hnone : Table.get? scheme.settings.reverse "color_scheme" = none := by
    rw [Table.get?_eq_none_iff, Table.names_reverse, List.mem_reverse]
    exact Table.get?_eq_none_iff.mp h
  rw [newSettings, Json.textOf?, Json.member?_object, Table.get?_putAll, hnone]
  rfl

theorem textOf?_extendSettings (settings : Json) (overlay : Table Json) (theme : String) :
    (extendSettings settings overlay theme).textOf? "color_scheme" = some theme := by
  rw [extendSettings, Json.textOf?, Json.member?_object, Table.get?_put, if_pos rfl]
  rfl

theorem agreeNew_ofRules (h : (rules.map (·.identifier)).Nodup) (base : Option BaseColours)
    (ids : Ids) : AgreeNew (ofRules scheme rules directory base ids) rules := by
  refine ⟨rules.map rulePattern, _, rfl, rfl, List.length_map _, ?_, ?_, ?_⟩
  · rw [List.length_cons, List.length_map]
  · -- the first entry has the colours of the whole theme, so the rules are one place behind
    intro i rule hrule
    refine ⟨rulePattern rule, themeEntry rule rule.identifier, rule.identifier, ?_, ?_, rfl, rfl,
      rfl, shows_themeEntry rule _⟩
    · rw [List.getElem?_map, hrule]
      rfl
    · rw [List.getElem?_cons_succ, List.getElem?_map, hrule]
      rfl
  · -- the scopes of the patterns are the identifiers of the rules
    have hscopes : (rules.map rulePattern).map (·.textOf? "name")
        = (rules.map (·.identifier)).map some := by
      rw [List.map_map, List.map_map]
      rfl
    rw [hscopes]
    exact h.map (Option.some_injective _)

theorem agreeExtended_extend {files : SyntaxFiles} {grammar theme : Json} {scope : String}
    (h : (rules.map (·.identifier)).Nodup)
    (hgrammar : extendGrammar grammar scheme.name scope rules = .ok files.grammar)
    (htheme : files.theme = extendTheme theme scheme.name rules) :
    AgreeExtended files theme rules := by
  have hscopes : ((rules.map fun rule => themeEntry rule (publishedScope rule scheme.name)).map
      (·.textOf? "scope")).Nodup := by
    have hmap := (nodup_publishedScopes h scheme.name).map (Option.some_injective _)
    rw [List.map_map] at hmap ⊢
    exact hmap
  refine ⟨rules.map fun rule => themeEntry rule (publishedScope rule scheme.name), ?_,
    List.length_map _, ?_⟩
  · rw [htheme, itemsOf?_extendTheme, addedEntries]
  · intro rule hrule
    have hentry : themeEntry rule (publishedScope rule scheme.name)
        ∈ rules.map fun rule => themeEntry rule (publishedScope rule scheme.name) :=
      List.mem_map_of_mem hrule
    exact ⟨_, _, _, definition?_extendGrammar_rule h hgrammar hrule, rfl, rfl,
      filter_eq_singleton hscopes hentry, shows_themeEntry rule _⟩

/-- The path of a theme is a text just if that of the output directory is. -/
theorem isText_file_iff (kind : Kind) {name : String} (h : '/' ∉ name.toList) :
    (kind.file directory name).IsText ↔ directory.IsText :=
  ⟨Path.isText_of_join (kind.isName_fileName h).not_isAbsolute,
    fun hdir => Path.isText_join hdir ⟨_, rfl⟩⟩

/--
**The three documents of a scheme fit together.** New documents are always made. In either case each
rule has its pattern in the grammar and its look in the theme under one scope that it shares with no
other rule, and the settings name the file that the theme is written to when the documents are
stored, by the text that is shown for its path. New settings do so unless the scheme has its own
word on it. The text is that path itself if the output directory's path is a text, and not
otherwise.
-/
theorem documents_fit_together (fs : FileSystem) (scheme : Scheme) (directory : Path)
    (base : Option BaseColours) (ids : Ids) (keywords : Keywords) (lists : KeywordLists) (n : Nat)
    (e : Entropy) :
    let rules := (Rule.batch keywords lists n e).rules
    let themeFile := Kind.theme.file directory scheme.name
    (scheme.derivation = none → ∃ files, build fs scheme rules directory base ids = .ok files ∧
      AgreeNew files rules ∧ (scheme.settings.get? "color_scheme" = none →
        files.settings.textOf? "color_scheme" = some themeFile.text)) ∧
    (∀ d files, scheme.derivation = some d →
      build fs scheme rules directory base ids = .ok files →
      (∃ targets theme, Targets.find fs [scheme.directory, directory] d = .ok targets ∧
        documentAt fs targets.theme = .ok theme ∧ AgreeExtended files theme rules) ∧
      files.settings.textOf? "color_scheme" = some themeFile.text) ∧
    (directory.IsText → (⟨themeFile.text⟩ : Path) = themeFile) ∧
    ('/' ∉ scheme.name.toList → (⟨themeFile.text⟩ : Path) = themeFile → directory.IsText) ∧
    ∀ (files : SyntaxFiles) (before after : FileSystem) (written : List Path),
      files.store before directory scheme.name = (.ok written, after) →
      written = [Kind.grammar.file directory scheme.name, themeFile,
        Kind.settings.file directory scheme.name] ∧
      ∃ fs₁ fs₂ fs₃, before.makeDirectories directory = (.ok (), fs₁) ∧
        fs₁.write (Kind.grammar.file directory scheme.name) (fileContent files.grammar) = .ok fs₂ ∧
        fs₂.write themeFile (fileContent files.theme) = .ok fs₃ ∧
        fs₃.write (Kind.settings.file directory scheme.name) (fileContent files.settings)
          = .ok after := by
  intro rules themeFile
  have hnodup : (rules.map (·.identifier)).Nodup := Rule.nodup_identifiers_makeAll n _ _
  refine ⟨?_, ?_, ?_, ?_, fun files before after written hstore => store_ok hstore⟩
  · -- new documents
    intro hd
    refine ⟨ofRules scheme rules directory base ids, ?_, agreeNew_ofRules hnodup base ids,
      textOf?_newSettings⟩
    rw [build, hd]
  · -- extended documents: nothing is known of the targets, and all of the rules comes after theirs
    intro d files hd hbuild
    rw [build, hd] at hbuild
    obtain ⟨targets, grammar, theme, settings, hfind, _, _, htheme, _, hgrammar, hnew, hsettings⟩ :=
      extending_ok_iff.mp hbuild
    refine ⟨⟨targets, theme, hfind, htheme, agreeExtended_extend hnodup hgrammar hnew⟩, ?_⟩
    rw [hsettings]
    exact textOf?_extendSettings settings _ _
  · -- a name ends the theme's path, so that only the directory can be what is no text
    intro hdir
    exact Path.mk_text_iff.mpr (Path.isText_join hdir ⟨_, rfl⟩)
  · intro hslash hsame
    exact (isText_file_iff .theme hslash).mp (Path.mk_text_iff.mp hsame)

/-- A rule for one keyword. -/
def fooRule : Rule := ⟨"foo", "\\bfoo\\b", "foo0", some ⟨16, 32, 48⟩, none, {}⟩

theorem rules_foo :
    (Rule.batch [("foo", .colour (.literal "#102030"))] {} 0 ⟨fun _ => 0, 0⟩).rules
      = [fooRule] := by
  rfl

/-- What the rule makes of the three base documents. -/
def fooFiles (directory : Path) : SyntaxFiles where
  grammar := .object [("patterns", .array [.object [("include", .string "#foo0")]]),
    ("name", .string "mine"), ("scopeName", .string "source.mine"),
    ("repository", .object [("foo0", .object [("match", .string "\\bfoo\\b"),
      ("name", .string "foo0.mine")])])]
  theme := extendTheme (.object []) "mine" [fooRule]
  settings := .object [("color_scheme", .string (themePath directory "mine"))]

theorem build_fooFiles {directory : Path}
    (hfind : Targets.find ⟨baseDocuments, []⟩ [⟨"/work"⟩, directory] ⟨"base", "base", "base", ""⟩
      = .ok baseTargets)
    (hcheck : baseTargets.check ⟨baseDocuments, []⟩ directory "mine" = .ok ()) :
    build ⟨baseDocuments, []⟩ baseExtension [fooRule] directory none ⟨"", ""⟩
      = .ok (fooFiles directory) := by
  obtain ⟨hgrammar, htheme, hsettings⟩ :=
    documentAt_baseTargets ⟨baseDocuments, []⟩ (by rfl) (by rfl) (by rfl)
  exact extending_ok_iff.mpr ⟨baseTargets, _, _, _, hfind, hcheck, hgrammar, htheme, hsettings,
    by rfl, rfl, rfl⟩

/-- One keyword, added to three documents. -/
theorem documents_fit_together_of_one_keyword :
    ∃ files, build ⟨baseDocuments, []⟩ baseExtension [fooRule] ⟨"/out"⟩ none ⟨"", ""⟩ = .ok files ∧
      AgreeExtended files (.object []) [fooRule] ∧
      files.settings.textOf? "color_scheme" = some "/out/mine.tmTheme.json" ∧
      Kind.theme.file ⟨"/out"⟩ "mine" = ⟨"/out/mine.tmTheme.json"⟩ := by
  have hfind : Targets.find ⟨baseDocuments, []⟩ [baseExtension.directory, ⟨"/out"⟩]
      ⟨"base", "base", "base", ""⟩ = .ok baseTargets := by rfl
  have hbuild := build_fooFiles hfind (by rfl)
  obtain ⟨_, htheme, _⟩ := documentAt_baseTargets ⟨baseDocuments, []⟩ (by rfl) (by rfl) (by rfl)
  rw [← rules_foo] at hbuild ⊢
  obtain ⟨-, hextended, htext, -, -⟩ :=
    documents_fit_together ⟨baseDocuments, []⟩ baseExtension ⟨"/out"⟩ none ⟨"", ""⟩
      [("foo", .colour (.literal "#102030"))] {} 0 ⟨fun _ => 0, 0⟩
  obtain ⟨⟨targets, theme, hfind', htheme', hagree⟩, hcolour⟩ := hextended _ _ rfl hbuild
  obtain rfl : targets = baseTargets := Except.ok.inj (hfind'.symm.trans hfind)
  obtain rfl : theme = .object [] := Except.ok.inj (htheme'.symm.trans htheme)
  exact ⟨_, hbuild, hagree, hcolour, (htext ⟨"/out", rfl⟩).symm⟩

/-- An output directory that is no text: its name is a byte that no character begins with. -/
def unnamed : Path := ⟨⟨[0x2F, 0xFF]⟩⟩

/-- The theme is written to that directory, and the settings name a file that is not there. -/
theorem settings_name_no_file :
    build ⟨baseDocuments, []⟩ baseExtension [fooRule] unnamed none ⟨"", ""⟩
      = .ok (fooFiles unnamed) ∧
    ((fooFiles unnamed).store ⟨baseDocuments, []⟩ unnamed "mine").1
      = .ok (Kind.all.map (·.file unnamed "mine")) ∧
    (fooFiles unnamed).settings.textOf? "color_scheme" = some "/\uFFFD/mine.tmTheme.json" ∧
    Kind.theme.file unnamed "mine" ≠ ⟨"/\uFFFD/mine.tmTheme.json"⟩ ∧
    ((fooFiles unnamed).store ⟨baseDocuments, []⟩ unnamed "mine").2.isFile
      ⟨"/\uFFFD/mine.tmTheme.json"⟩ = false := by
  refine ⟨build_fooFiles (by rfl) (by rfl), by decide +kernel, by rfl, by decide, by decide +kernel⟩

end SyntaxFiles

end Highlight
