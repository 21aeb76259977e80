import Highlight.Proofs.SyntaxFiles.Store
import Highlight.SyntaxFiles.Extended

/-!
# The documents that are extended

Extending goes through a chain of steps: the three targets are found, none of them may be the file
that would be written, they are read, and the grammar gets its rules. `extending_ok` says what
success tells about each. The check compares a target with the file of its own kind only
(`coincide_of_check`), which is enough where there are no links (`coincide_of_no_links`): the
endings tell files of different kinds apart.
-/

namespace Highlight.SyntaxFiles

open FileSystem

variable {fs : FileSystem} {targets : Targets} {directory : Path} {name : String}

theorem target_ok {directories : List Path} {kind : Kind} {p : Path}
    (h : target fs directories kind name = .ok p) :
    fs.isFile p = true ∧ kind.endingBytes <:+ p.bytes := by
  rw [target] at h
  split at h
  · next hfind =>
    cases h
    obtain ⟨directory, _, rfl⟩ := List.mem_map.mp (List.mem_of_find?_eq_some hfind)
    exact ⟨List.find?_some hfind, kind.endingBytes_suffix_file directory name⟩
  · cases h

/-- The targets that are found are files with the endings of their kinds. -/
theorem find_ok {directories : List Path} {d : Derivation}
    (h : Targets.find fs directories d = .ok targets) (kind : Kind) :
    fs.isFile (targets.get kind) = true ∧
      kind.endingBytes <:+ (targets.get kind).bytes := by
  obtain ⟨grammar, hgrammar, h⟩ := exists_of_bind_ok h
  obtain ⟨theme, htheme, h⟩ := exists_of_bind_ok h
  obtain ⟨settings, hsettings, h⟩ := exists_of_bind_ok h
  cases h
  cases kind with
  | grammar => exact target_ok hgrammar
  | theme => exact target_ok htheme
  | settings => exact target_ok hsettings

/-! ## Paths that lead to one file -/

theorem coincide_of_check (h : targets.check fs directory name = .ok ()) (kind : Kind) :
    coincide fs (targets.get kind) (kind.file directory name) = false := by
  rw [Targets.check] at h
  split at h
  · cases h
  · next hnone =>
    simpa using List.find?_eq_none.mp hnone kind kind.mem_all

theorem coincide_iff {p q : Path} {l : Location} (hp : fs.canonical p = .ok l) :
    coincide fs p q = true ↔ p.components = q.components ∨ fs.canonical q = .ok l := by
  rw [coincide, hp, Bool.or_eq_true, beq_iff_eq]
  cases hq : fs.canonical q with
  | error e => simp
  | ok m => rw [beq_iff_eq, Except.ok.injEq, eq_comm (a := m)]

theorem locate_ne_of_coincide {p q : Path} {l : Location} {n n' : Node}
    (h : coincide fs p q = false) (hp : fs.locate p = .ok (l, n)) : fs.locate q ≠ .ok (l, n') := by
  intro hq
  rw [coincide, canonical_of_locate hp, canonical_of_locate hq] at h
  simp at h

/-- Where there are no links, files of different kinds are different files. -/
theorem coincide_of_no_links {kind kind' : Kind} {p q : Path} (hk : kind ≠ kind')
    (hlinks : ∀ l t, fs.node? l ≠ some (.link t)) (hp : kind.endingBytes <:+ p.bytes)
    (hq : kind'.endingBytes <:+ q.bytes) : coincide fs p q = false := by
  obtain ⟨steps, x, hx, hxend⟩ :=
    Path.exists_steps_of_suffix hp kind.slash_endingBytes kind.length_endingBytes
  obtain ⟨steps', y, hy, hyend⟩ :=
    Path.exists_steps_of_suffix hq kind'.slash_endingBytes kind'.length_endingBytes
  -- the two paths end in different names
  have hne : x ≠ y := by
    rintro rfl
    exact hk (Kind.eq_of_endingBytes_suffix hxend hyend)
  rw [coincide, Bool.or_eq_false_iff]
  constructor
  · -- the paths themselves differ in their last move
    rw [beq_eq_false_iff_ne]
    intro heq
    have hmoves : p.moves = q.moves := by
      rw [Path.moves_eq_components, Path.moves_eq_components, heq]
    rw [Path.moves, Path.moves, hx, hy, List.filter_append, List.filter_append] at hmoves
    have hlast := (List.append_inj' hmoves rfl).2
    simp [hne] at hlast
  · -- without links each one leads to an entry of its own name
    split
    · next l m hl hm =>
      have hpath := leadsTo_of_canonical hl
      have hpath' := leadsTo_of_canonical hm
      rw [LeadsTo, hx] at hpath
      rw [LeadsTo, hy] at hpath'
      obtain ⟨d, rfl⟩ := hpath.last_of_no_links hlinks
      obtain ⟨d', rfl⟩ := hpath'.last_of_no_links hlinks
      simp [hne]
    · rfl

/-! ## The chain of steps -/

theorem documentAt_of_read {p : Path} {text : String} {doc : Json}
    (h : fs.read p = .ok text.toUTF8) (hdoc : Json.read text = .ok doc) :
    documentAt fs p = .ok doc := by
  rw [documentAt, readText_of_read h]
  dsimp only
  rw [hdoc]

/-- What success in extending tells about its steps. -/
theorem extending_ok_iff {scheme : Scheme} {d : Derivation} {rules : List Rule}
    {files : SyntaxFiles} : extending fs scheme d rules directory = .ok files ↔
      ∃ targets grammar theme settings,
        Targets.find fs [scheme.directory, directory] d = .ok targets ∧
        targets.check fs directory scheme.name = .ok () ∧
        documentAt fs targets.grammar = .ok grammar ∧
        documentAt fs targets.theme = .ok theme ∧
        documentAt fs targets.settings = .ok settings ∧
        extendGrammar grammar scheme.name d.scope rules = .ok files.grammar ∧
        files.theme = extendTheme theme scheme.name rules ∧
        files.settings = extendSettings settings scheme.settings
          (themePath directory scheme.name) := by
  constructor
  · intro h
    obtain ⟨targets, hfind, h⟩ := exists_of_bind_ok h
    obtain ⟨_, hcheck, h⟩ := exists_of_bind_ok h
    obtain ⟨grammar, hgrammar, h⟩ := exists_of_bind_ok h
    obtain ⟨theme, htheme, h⟩ := exists_of_bind_ok h
    obtain ⟨settings, hsettings, h⟩ := exists_of_bind_ok h
    obtain ⟨extended, hextended, h⟩ := exists_of_bind_ok h
    cases h
    exact ⟨targets, grammar, theme, settings, hfind, hcheck, hgrammar, htheme, hsettings,
      of_mapError_ok hextended, rfl, rfl⟩
  · obtain ⟨grammar', theme', settings'⟩ := files
    rintro ⟨targets, grammar, theme, settings, hfind, hcheck, hgrammar, htheme, hsettings,
      hextended, rfl, rfl⟩
    simp only [extending, hfind, hcheck, hgrammar, htheme, hsettings, hextended, bind, Except.bind]
    rfl

/-! ## A small example -/

/-- Three documents to extend, in the directory `work`. -/
def baseDocuments : List (Location × Node) :=
  [(["work"], .directory),
    (["base.tmLanguage.json", "work"], .file "\x7b\"patterns\": []\x7d".toUTF8),
    (["base.tmTheme.json", "work"], .file "\x7b\x7d".toUTF8),
    (["base.sublime-settings", "work"], .file "\x7b\x7d".toUTF8)]

/-- Their paths. -/
def baseTargets : Targets :=
  ⟨⟨"/work/base.tmLanguage.json"⟩, ⟨"/work/base.tmTheme.json"⟩, ⟨"/work/base.sublime-settings"⟩⟩

/-- A scheme next to them that extends them. -/
def baseExtension : Scheme where
  name := "mine"
  directory := ⟨"/work"⟩
  derivation := some ⟨"base", "base", "base", ""⟩

/-- Wherever the three can be read, they are what they are. -/
theorem documentAt_baseTargets (fs : FileSystem)
    (hgrammar : fs.read baseTargets.grammar = .ok "\x7b\"patterns\": []\x7d".toUTF8)
    (htheme : fs.read baseTargets.theme = .ok "\x7b\x7d".toUTF8)
    (hsettings : fs.read baseTargets.settings = .ok "\x7b\x7d".toUTF8) :
    documentAt fs baseTargets.grammar = .ok (.object [("patterns", .array [])]) ∧
      documentAt fs baseTargets.theme = .ok (.object []) ∧
      documentAt fs baseTargets.settings = .ok (.object []) := by
  have hpatterns : Json.read "\x7b\"patterns\": []\x7d"
      = .ok (.object [("patterns", .array [])]) := by rfl
  have hempty : Json.read "\x7b\x7d" = .ok (.object []) := by rfl
  exact ⟨documentAt_of_read hgrammar hpatterns, documentAt_of_read htheme hempty,
    documentAt_of_read hsettings hempty⟩

end Highlight.SyntaxFiles
