import Highlight.Proofs.Compilation.Outcome
import Highlight.Proofs.FileSystem.Refilled
import Highlight.Proofs.SyntaxFiles.Effect

/-!
# What a compilation cannot fail for

The documents that a scheme includes and the base theme say how the rules and the new documents
look, never whether there are any: one that cannot be read counts as empty. So let other bytes stand
in any files but those that must be read, which are the scheme file and its targets. Then the rules
may be others, in number and in name, but each step of a compilation fails for the reason for which
it did before, or does not fail.
-/

namespace Highlight.Compilation

open FileSystem (Refilled)
open SyntaxFiles (Kind Targets coincide documentAt target extendGrammar baseDocuments baseTargets)

variable {fs fs' : FileSystem} {setup : Setup} {fresh fresh' : Fresh} {path : Path}
  {scheme : Scheme}

/-! ## What must be read -/

theorem load_of_read_eq {p : Path} (h : fs'.read p = fs.read p) :
    Scheme.load fs' p = Scheme.load fs p := by
  rw [Scheme.load, Scheme.load, FileSystem.readText, FileSystem.readText, h]

theorem documentAt_of_read_eq {p : Path} (h : fs'.read p = fs.read p) :
    documentAt fs' p = documentAt fs p := by
  rw [documentAt, documentAt, FileSystem.readText, FileSystem.readText, h]

/-! ## What only has to be there -/

theorem find_of_refilled (h : Refilled fs fs') (directories : List Path) (d : Derivation) :
    Targets.find fs' directories d = Targets.find fs directories d := by
  have htarget : target fs' = target fs := by
    funext directories kind name
    rw [target, target, funext h.isFile]
  rw [Targets.find, Targets.find, htarget]

theorem check_of_refilled (h : Refilled fs fs') (targets : Targets) (directory : Path)
    (name : String) : targets.check fs' directory name = targets.check fs directory name := by
  have hcoincide : coincide fs' = coincide fs := by
    funext p q
    rw [coincide, coincide, h.canonical, h.canonical]
  rw [Targets.check, Targets.check, hcoincide]

/-! ## What is made -/

/-- Other rules are added where these are, or not added for the same reason. -/
theorem sameOutcome_extendGrammar (grammar : Json) (scheme scope : String)
    (rules rules' : List Rule) : SameOutcome (fun _ _ => True)
      (extendGrammar grammar scheme scope rules) (extendGrammar grammar scheme scope rules') := by
  cases grammar with
  | object members =>
    rcases SyntaxFiles.extendGrammar_cases members scheme scope rules with
      ⟨missing, hobstacle, herror⟩ | ⟨hnone, _, _, _, _, _, hok⟩
    · -- the path meets an obstacle, which no rule has a part in
      rw [herror, SyntaxFiles.extendGrammar_error_iff.mpr hobstacle]
      exact .error missing
    · -- the path is clear, for other rules as well
      rcases SyntaxFiles.extendGrammar_cases members scheme scope rules' with
        ⟨_, hobstacle, _⟩ | ⟨_, _, _, _, _, _, hok'⟩
      · rw [hnone] at hobstacle
        cases hobstacle
      · rw [hok, hok']
        exact .ok trivial
  | _ => exact .error _

theorem sameOutcome_extending (h : Refilled fs fs') {d : Derivation} (rules rules' : List Rule)
    (directory : Path)
    (htargets : ∀ targets, Targets.find fs [scheme.directory, directory] d = .ok targets →
      ∀ kind, fs'.read (targets.get kind) = fs.read (targets.get kind)) :
    SameOutcome (fun _ _ => True) (SyntaxFiles.extending fs scheme d rules directory)
      (SyntaxFiles.extending fs' scheme d rules' directory) := by
  rw [SyntaxFiles.extending, SyntaxFiles.extending, find_of_refilled h]
  -- the same documents are found, and read as before
  refine .after fun targets hfind => ?_
  have hgrammar : documentAt fs' targets.grammar = documentAt fs targets.grammar :=
    documentAt_of_read_eq (htargets targets hfind .grammar)
  have htheme : documentAt fs' targets.theme = documentAt fs targets.theme :=
    documentAt_of_read_eq (htargets targets hfind .theme)
  have hsettings : documentAt fs' targets.settings = documentAt fs targets.settings :=
    documentAt_of_read_eq (htargets targets hfind .settings)
  rw [check_of_refilled h, hgrammar, htheme, hsettings]
  refine .after fun _ _ => .after fun grammar _ => .after fun theme _ => .after fun settings _ => ?_
  have hextend := sameOutcome_extendGrammar grammar scheme.name d.scope rules rules'
  generalize extendGrammar grammar scheme.name d.scope rules = r,
    extendGrammar grammar scheme.name d.scope rules' = r' at hextend
  cases hextend with
  | error missing => exact .error _
  | ok _ => exact .ok trivial

theorem sameOutcome_filesOf (h : Refilled fs fs')
    (htargets : ∀ d targets, scheme.derivation = some d →
      Targets.find fs [scheme.directory, setup.outputDirectory] d = .ok targets →
      ∀ kind, fs'.read (targets.get kind) = fs.read (targets.get kind)) :
    SameOutcome (fun _ _ => True) (filesOf fs setup fresh scheme)
      (filesOf fs' setup fresh' scheme) := by
  rw [filesOf, filesOf, SyntaxFiles.build, SyntaxFiles.build]
  cases hd : scheme.derivation with
  | none => exact .ok trivial
  | some d =>
    exact sameOutcome_extending h _ _ setup.outputDirectory fun targets => htargets d targets hd

/-! ## What is written -/

theorem writeKinds_of_refilled (h : Refilled fs fs') (files files' : SyntaxFiles)
    (directory : Path) (name : String) (kinds : List Kind) :
    (files'.writeKinds directory name kinds fs').1
      = (files.writeKinds directory name kinds fs).1 := by
  induction kinds generalizing fs fs' with
  | nil => rfl
  | cons kind kinds ih =>
    -- a file can be written to where it could, whatever was written so far
    have houtcome := h.write (kind.file directory name) (SyntaxFiles.fileContent (files.get kind))
      (SyntaxFiles.fileContent (files'.get kind))
    generalize hwrite : fs.write _ _ = r, hwrite' : fs'.write _ _ = r' at houtcome
    cases houtcome with
    | error cause =>
      rw [SyntaxFiles.writeKinds_cons_of_error hwrite,
        SyntaxFiles.writeKinds_cons_of_error hwrite']
    | ok hwritten =>
      rw [SyntaxFiles.writeKinds_cons_of_ok hwrite, SyntaxFiles.writeKinds_cons_of_ok hwrite',
        ih hwritten]

theorem store_of_refilled (h : Refilled fs fs') (files files' : SyntaxFiles) (directory : Path)
    (name : String) : (files'.store fs' directory name).1 = (files.store fs directory name).1 := by
  rw [SyntaxFiles.store, SyntaxFiles.store]
  obtain ⟨hsame, hmade⟩ := h.makeDirectories directory
  generalize fs.makeDirectories directory = r, fs'.makeDirectories directory = r' at hsame hmade
  obtain ⟨outcome, fs₁⟩ := r
  obtain ⟨outcome', fs₁'⟩ := r'
  obtain rfl : outcome' = outcome := hsame
  cases outcome' with
  | error e => rfl
  | ok _ => exact writeKinds_of_refilled hmade files files' directory name Kind.all

/-- What a compilation tells, but for the number of rules. -/
def SameReport (done done' : Done) : Prop :=
  done'.name = done.name ∧ done'.origin = done.origin ∧ done'.written = done.written

theorem sameOutcome_compile (h : Refilled fs fs')
    (hscheme : fs'.read (schemePath fs path) = fs.read (schemePath fs path))
    (htargets : ∀ scheme d targets, Scheme.load fs (schemePath fs path) = .ok scheme →
      scheme.derivation = some d →
      Targets.find fs [scheme.directory, setup.outputDirectory] d = .ok targets →
      ∀ kind, fs'.read (targets.get kind) = fs.read (targets.get kind)) :
    SameOutcome SameReport (compile fs setup fresh path).1 (compile fs' setup fresh' path).1 := by
  have hpath : schemePath fs' path = schemePath fs path := by
    rw [schemePath, schemePath, h.cwd]
  -- the scheme is the same; what is made of it may differ, but not whether it is made
  rw [compile, compile, hpath, load_of_read_eq hscheme]
  cases hload : Scheme.load fs (schemePath fs path) with
  | error e => exact .error _
  | ok scheme =>
    dsimp only
    have hfiles : SameOutcome (fun _ _ => True) (filesOf fs setup fresh scheme)
        (filesOf fs' setup fresh' scheme) := sameOutcome_filesOf h (htargets scheme · · hload)
    rw [compileLoaded, compileLoaded]
    generalize filesOf fs setup fresh scheme = r, filesOf fs' setup fresh' scheme = r' at hfiles
    cases hfiles with
    | error e => exact .error _
    | @ok files files' _ =>
      -- and it is stored wherever it was stored before
      have hstore := store_of_refilled h files files' setup.outputDirectory scheme.name
      dsimp only
      generalize files.store fs setup.outputDirectory scheme.name = r,
        files'.store fs' setup.outputDirectory scheme.name = r' at hstore
      obtain ⟨outcome, fs₁⟩ := r
      obtain ⟨outcome', fs₁'⟩ := r'
      obtain rfl : outcome' = outcome := hstore
      cases outcome' with
      | error e => exact .error _
      | ok written => exact .ok ⟨rfl, rfl, rfl⟩

/--
**No auxiliary document decides.** Let any files have other bytes, such as the documents that are
included, whether by the scheme or by each other, and the base theme; but let the scheme file and
the targets that are found for it be read as before. Then a compilation succeeds if it did before,
whether its documents are new or extend others, and if it fails it is with the same error.
-/
theorem auxiliary_bytes_never_decide (fs fs' : FileSystem) (setup : Setup) (fresh fresh' : Fresh)
    (path : Path) (h : Refilled fs fs')
    (hscheme : fs'.read (schemePath fs path) = fs.read (schemePath fs path))
    (htargets : ∀ scheme d targets, Scheme.load fs (schemePath fs path) = .ok scheme →
      scheme.derivation = some d →
      Targets.find fs [scheme.directory, setup.outputDirectory] d = .ok targets →
      ∀ kind, fs'.read (targets.get kind) = fs.read (targets.get kind)) :
    (∀ e, (compile fs' setup fresh' path).1 = .error e ↔
      (compile fs setup fresh path).1 = .error e) ∧
    ∀ done, (compile fs setup fresh path).1 = .ok done →
      ∃ done', (compile fs' setup fresh' path).1 = .ok done' ∧ SameReport done done' := by
  have houtcome : SameOutcome SameReport (compile fs setup fresh path).1
      (compile fs' setup fresh' path).1 := sameOutcome_compile h hscheme htargets
  refine ⟨houtcome.error_iff, fun done hdone => ?_⟩
  rw [hdone] at houtcome
  generalize (compile fs' setup fresh' path).1 = outcome' at houtcome
  cases houtcome with
  | ok hsame => exact ⟨_, rfl, hsame⟩

/-- A scheme file that includes a document, and extends a grammar at a scope that is not there. -/
def includingText : String :=
  "\x7b\"include\": [\"more\"], \"deriving\": \x7b\"grammar\": \"base\", \"theme\": \"base\", " ++
    "\"settings\": \"base\", \"scope\": \"nope\"\x7d\x7d"

/-- The files, with any bytes in the document that is included. -/
def including (more : ByteArray) : FileSystem where
  nodes := baseDocuments ++ ([(["mine.json", "work"], .file includingText.toUTF8),
    (["more.json", "work"], .file more)] : List (Location × Node))

/-- The scheme. -/
def includingScheme : Scheme where
  name := "mine"
  directory := ⟨"/work"⟩
  includes := ["more"]
  derivation := some ⟨"base", "base", "base", "nope"⟩

theorem refilled_including (more more' : ByteArray) :
    Refilled (including more) (including more') := by
  refine ⟨rfl, fun l => ?_⟩
  simp only [FileSystem.node?, including, baseDocuments, List.cons_append, List.nil_append,
    FileSystem.find]
  split_ifs <;> rfl

/-- There is a keyword to include. -/
def withKeyword : FileSystem := including "\x7b\"keywords\": \x7b\"x\": \"red\"\x7d\x7d".toUTF8

theorem load_withKeyword :
    Scheme.load withKeyword (schemePath withKeyword ⟨"/work/mine.json"⟩) = .ok includingScheme := by
  have hparse : Scheme.parse includingText = .ok {
      includes := ["more"]
      derivation := some ⟨"base", "base", "base", "nope"⟩ } := by rfl
  have hpath : schemePath withKeyword ⟨"/work/mine.json"⟩ = ⟨"/work/mine.json"⟩ := by rfl
  rw [hpath]
  exact Scheme.load_of_read (by rfl) hparse

theorem find_withKeyword : Targets.find withKeyword [⟨"/work"⟩, ⟨"/out"⟩]
    ⟨"base", "base", "base", "nope"⟩ = .ok baseTargets := by rfl

theorem compile_withKeyword (fresh : Fresh) :
    (compile withKeyword ⟨⟨"/out"⟩, ⟨"/shared"⟩, none⟩ fresh ⟨"/work/mine.json"⟩).1
      = .error (.making "mine" (.scopeMissing ⟨"nope", "nope"⟩)) := by
  have hcheck : baseTargets.check withKeyword ⟨"/out"⟩ "mine" = .ok () := by rfl
  obtain ⟨hgrammar, htheme, hsettings⟩ :=
    SyntaxFiles.documentAt_baseTargets withKeyword (by rfl) (by rfl) (by rfl)
  have hextend : ∀ rules, extendGrammar (.object [("patterns", .array [])]) "mine" "nope" rules
      = .error ⟨"nope", "nope"⟩ := fun rules => SyntaxFiles.extendGrammar_error_iff.mpr (by rfl)
  have hfiles : filesOf withKeyword ⟨⟨"/out"⟩, ⟨"/shared"⟩, none⟩ fresh includingScheme
      = .error (.scopeMissing ⟨"nope", "nope"⟩) := by
    -- whatever the rules are, there is no place for them
    rw [filesOf]
    generalize rulesOf withKeyword _ _ _ = rules
    simp only [SyntaxFiles.build, SyntaxFiles.extending, includingScheme, find_withKeyword, hcheck,
      hgrammar, htheme, hsettings, hextend, bind, Except.bind]
    rfl
  rw [compile, load_withKeyword]
  dsimp only
  rw [compileLoaded, hfiles]
  rfl

/-- Bytes that are no text, where there was a keyword to include. -/
theorem auxiliary_bytes_never_decide_of_broken_include :
    (compile (including ⟨#[0xff]⟩) ⟨⟨"/out"⟩, ⟨"/shared"⟩, none⟩ (Fresh.ofSeed [])
      ⟨"/work/mine.json"⟩).1 = .error (.making "mine" (.scopeMissing ⟨"nope", "nope"⟩)) := by
  have hscheme : (including ⟨#[0xff]⟩).read (schemePath withKeyword ⟨"/work/mine.json"⟩)
      = withKeyword.read (schemePath withKeyword ⟨"/work/mine.json"⟩) := by rfl
  refine ((auxiliary_bytes_never_decide withKeyword _ _ (Fresh.ofSeed []) _ _
    (refilled_including _ _) hscheme ?_).1 _).mpr (compile_withKeyword _)
  intro scheme d targets hload hd hfound kind
  obtain rfl : includingScheme = scheme := Except.ok.inj (load_withKeyword.symm.trans hload)
  obtain rfl : ⟨"base", "base", "base", "nope"⟩ = d := Option.some.inj hd
  obtain rfl : baseTargets = targets := Except.ok.inj (find_withKeyword.symm.trans hfound)
  cases kind <;> rfl

end Highlight.Compilation
