import Highlight.Proofs.Compilation.Outcome
import Highlight.Proofs.SyntaxFiles.Extending

/-!
# The files that a compilation extends

A scheme that extends three documents is compiled without touching their files, as long as none of
them is where another kind of document goes to, and the output directory can be told apart from
others before it is made (`compile_leaves_targets_alone`). That no document goes to its own kind's
target is what the check sees to. The other kinds are not checked, so that a link from one to the
other is followed (`compile_writes_through_link`).
-/

namespace Highlight.Compilation

open SyntaxFiles (Kind Targets coincide baseDocuments baseExtension baseTargets)

variable {fs : FileSystem} {path : Path}

theorem check_of_filesOf {setup : Setup} {fresh : Fresh} {scheme : Scheme} {d : Derivation}
    {targets : Targets} {files : SyntaxFiles} (hd : scheme.derivation = some d)
    (hfind : Targets.find fs [scheme.directory, setup.outputDirectory] d = .ok targets)
    (h : filesOf fs setup fresh scheme = .ok files) :
    targets.check fs setup.outputDirectory scheme.name = .ok () := by
  rw [filesOf, SyntaxFiles.build, hd] at h
  obtain ⟨targets', _, _, _, hfind', hcheck, _⟩ := SyntaxFiles.extending_ok_iff.mp h
  obtain rfl : targets' = targets := Except.ok.inj (hfind'.symm.trans hfind)
  exact hcheck

/--
**The documents that are extended stay as they are.** Whatever comes of the compilation, their files
have the same bytes afterwards. The output directory must be there or its path must not lead up,
and where there are links no document may go to a target of another kind.
-/
theorem compile_leaves_targets_alone (setup : Setup) (fresh : Fresh) {scheme : Scheme}
    {d : Derivation} {targets : Targets} (hg : fs.Grounded)
    (hload : Scheme.load fs (schemePath fs path) = .ok scheme) (hd : scheme.derivation = some d)
    (hfind : Targets.find fs [scheme.directory, setup.outputDirectory] d = .ok targets)
    (hdir : fs.isDirectory setup.outputDirectory = true ∨ .up ∉ setup.outputDirectory.steps)
    (hother : (∀ l t, fs.node? l ≠ some (.link t)) ∨ ∀ kind kind', kind ≠ kind' →
      coincide fs (targets.get kind) (kind'.file setup.outputDirectory scheme.name) = false)
    (kind : Kind) :
    ∃ content, fs.read (targets.get kind) = .ok content ∧
      (compile fs setup fresh path).2.read (targets.get kind) = .ok content := by
  obtain ⟨l, content, hl⟩ := FileSystem.isFile_iff.mp (SyntaxFiles.find_ok hfind kind).1
  refine ⟨content, FileSystem.read_of_locate hl, ?_⟩
  rcases compile_cases fs setup fresh path with hsame | ⟨scheme', files, hload', hfiles⟩
  · -- nothing was written
    rw [hsame]
    exact FileSystem.read_of_locate hl
  · obtain rfl : scheme' = scheme := Except.ok.inj (hload'.symm.trans hload)
    rw [(compile_of_filesOf hload hfiles).1]
    refine SyntaxFiles.read_store hg hdir ?_ hl ?_
    · -- the scheme is named after its file
      rw [Scheme.name_of_load hload]
      exact Scheme.slash_nameOf _
    · intro kind'
      have hdiffer : coincide fs (targets.get kind)
          (kind'.file setup.outputDirectory scheme'.name) = false := by
        -- its own kind's target is the one that is checked
        by_cases hk : kind = kind'
        · subst hk
          exact SyntaxFiles.coincide_of_check (check_of_filesOf hd hfind hfiles) kind
        · -- other kinds end in another way, unless there are links
          rcases hother with hlinks | hother
          · exact SyntaxFiles.coincide_of_no_links hk hlinks (SyntaxFiles.find_ok hfind kind).2
              (kind'.endingBytes_suffix_file _ _)
          · exact hother kind kind' hk
      exact SyntaxFiles.locate_ne_of_coincide hdiffer hl

/-- The scheme file and the three documents it asks for. -/
def extendable : FileSystem where
  nodes := baseDocuments ++ ([(["mine.json", "work"], .file extensionText.toUTF8)] :
    List (Location × Node))

theorem compile_leaves_targets_alone_of_extendable :
    (compile extendable ⟨⟨"/out"⟩, ⟨"/shared"⟩, none⟩ (Fresh.ofSeed []) ⟨"/work/mine.json"⟩).2.read
      ⟨"/work/base.tmLanguage.json"⟩ = .ok "\x7b\"patterns\": []\x7d".toUTF8 := by
  have hg : extendable.Grounded := by
    refine FileSystem.grounded_of_nodes rfl ?_
    simp only [extendable, baseDocuments, List.cons_append, List.nil_append, List.forall_mem_cons]
    exact ⟨rfl, rfl, rfl, rfl, rfl, fun e he => by cases he⟩
  have hlinks : ∀ l t, extendable.node? l ≠ some (.link t) := by
    intro l t h
    have hmem := FileSystem.mem_of_node? h (by simp)
    simp [extendable, baseDocuments] at hmem
  have hpath : schemePath extendable ⟨"/work/mine.json"⟩ = ⟨"/work/mine.json"⟩ := by rfl
  have hload : Scheme.load extendable (schemePath extendable ⟨"/work/mine.json"⟩)
      = .ok baseExtension := by
    rw [hpath]
    exact load_extension (by rfl)
  have hfind : Targets.find extendable [baseExtension.directory, ⟨"/out"⟩]
      ⟨"base", "base", "base", ""⟩ = .ok baseTargets := by rfl
  have hread : extendable.read baseTargets.grammar = .ok "\x7b\"patterns\": []\x7d".toUTF8 := by
    rfl
  obtain ⟨content, hbefore, hafter⟩ := compile_leaves_targets_alone
    ⟨⟨"/out"⟩, ⟨"/shared"⟩, none⟩ (Fresh.ofSeed []) hg hload rfl hfind
    (Or.inr (by decide)) (Or.inl hlinks) .grammar
  exact hafter.trans (hbefore.symm.trans hread)

/-- The same files, and a link from where the theme goes to over to the grammar. -/
def linked : FileSystem where
  nodes := extendable.nodes ++ ([(["out"], .directory),
    (["mine.tmTheme.json", "out"], .link ⟨"/work/base.tmLanguage.json"⟩)] :
    List (Location × Node))

/-- What is made of the three documents. -/
def linkedFiles : SyntaxFiles where
  grammar := .object [("patterns", .array []), ("name", .string "mine"),
    ("scopeName", .string "source.mine"), ("repository", .object [])]
  theme := .object [("name", .string "mine"), ("settings", .array [])]
  settings := .object [("color_scheme", .string "/out/mine.tmTheme.json")]

/-- The scheme includes nothing and has no keywords. -/
theorem allKeywords_baseExtension (fs : FileSystem) (shared : Option Path) :
    baseExtension.allKeywords fs shared = [] := by
  rw [Scheme.allKeywords, withIncludes_keywords, withIncludes_loads]
  simp [Scheme.source, baseExtension, visitAll_nil]

/-- It is made into the same documents wherever its targets are found and can be read. -/
theorem filesOf_baseExtension (fresh : Fresh)
    (hfind : Targets.find fs [⟨"/work"⟩, ⟨"/out"⟩] ⟨"base", "base", "base", ""⟩ = .ok baseTargets)
    (hcheck : baseTargets.check fs ⟨"/out"⟩ "mine" = .ok ())
    (hgrammar : fs.read baseTargets.grammar = .ok "\x7b\"patterns\": []\x7d".toUTF8)
    (htheme : fs.read baseTargets.theme = .ok "\x7b\x7d".toUTF8)
    (hsettings : fs.read baseTargets.settings = .ok "\x7b\x7d".toUTF8) :
    filesOf fs ⟨⟨"/out"⟩, ⟨"/shared"⟩, none⟩ fresh baseExtension = .ok linkedFiles := by
  have hrules : rulesOf fs ⟨⟨"/out"⟩, ⟨"/shared"⟩, none⟩ fresh baseExtension = [] := by
    rw [rulesOf, allKeywords_baseExtension]
    rfl
  obtain ⟨hgrammar, htheme, hsettings⟩ :=
    SyntaxFiles.documentAt_baseTargets fs hgrammar htheme hsettings
  rw [filesOf, hrules]
  exact SyntaxFiles.extending_ok_iff.mpr ⟨baseTargets, _, _, _, hfind, hcheck, hgrammar, htheme,
    hsettings, by rfl, by rfl, by rfl⟩

theorem filesOf_linked :
    filesOf linked ⟨⟨"/out"⟩, ⟨"/shared"⟩, none⟩ (Fresh.ofSeed []) baseExtension
      = .ok linkedFiles :=
  filesOf_baseExtension _ (by rfl) (by rfl) (by rfl) (by rfl) (by rfl)

/-- The theme replaces the grammar. -/
theorem compile_writes_through_link :
    ∃ scheme d targets, linked.Grounded ∧
      Scheme.load linked (schemePath linked ⟨"/work/mine.json"⟩) = .ok scheme ∧
      scheme.derivation = some d ∧
      Targets.find linked [scheme.directory, ⟨"/out"⟩] d = .ok targets ∧
      (compile linked ⟨⟨"/out"⟩, ⟨"/shared"⟩, none⟩ (Fresh.ofSeed []) ⟨"/work/mine.json"⟩).2.read
        targets.grammar ≠ linked.read targets.grammar := by
  have hg : linked.Grounded := by
    refine FileSystem.grounded_of_nodes rfl ?_
    simp only [linked, extendable, baseDocuments, List.cons_append, List.nil_append,
      List.forall_mem_cons]
    exact ⟨rfl, rfl, rfl, rfl, rfl, rfl, rfl, fun e he => by cases he⟩
  have hpath : schemePath linked ⟨"/work/mine.json"⟩ = ⟨"/work/mine.json"⟩ := by rfl
  have hload : Scheme.load linked (schemePath linked ⟨"/work/mine.json"⟩)
      = .ok baseExtension := by
    rw [hpath]
    exact load_extension (by rfl)
  -- the theme is written through the link
  have hstore : (linkedFiles.store linked ⟨"/out"⟩ "mine").2.read baseTargets.grammar
      = .ok (SyntaxFiles.fileContent linkedFiles.theme) := by decide +kernel
  have hread : linked.read baseTargets.grammar = .ok "\x7b\"patterns\": []\x7d".toUTF8 := by rfl
  refine ⟨baseExtension, ⟨"base", "base", "base", ""⟩, baseTargets, hg, hload, rfl, by rfl, ?_⟩
  rw [(compile_of_filesOf hload filesOf_linked).1]
  dsimp only [baseExtension]
  rw [hstore, hread]
  decide +kernel

end Highlight.Compilation
