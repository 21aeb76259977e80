import Highlight.Compilation
import Highlight.Proofs.Scheme.Load
import Highlight.Proofs.SyntaxFiles.Extending

/-!
# What a compilation leaves behind

A compilation that changes anything has all three documents by then: what becomes of the file
system is either nothing at all or what storing them makes of it (`compile_cases`). So an error that
is not about the output directory or one of the files written to it leaves everything as it was.
-/

namespace Highlight.Compilation

open SyntaxFiles (Kind baseExtension)

variable {fs : FileSystem} {setup : Setup} {fresh : Fresh} {path : Path}

/-- Where the documents are there, storing them is all that is done and all that can fail. -/
theorem compile_of_filesOf {scheme : Scheme} {files : SyntaxFiles}
    (hload : Scheme.load fs (schemePath fs path) = .ok scheme)
    (hfiles : filesOf fs setup fresh scheme = .ok files) :
    (compile fs setup fresh path).2 = (files.store fs setup.outputDirectory scheme.name).2 ∧
      ∀ e, (compile fs setup fresh path).1 = .error e →
        ∃ e', (files.store fs setup.outputDirectory scheme.name).1 = .error e' ∧
          e = .making scheme.name e' := by
  rw [compile, hload]
  dsimp only
  rw [compileLoaded, hfiles]
  dsimp only
  split
  · next e' fs' hstore =>
    rw [hstore]
    exact ⟨rfl, fun e he => ⟨e', rfl, (Except.error.inj he).symm⟩⟩
  · next written fs' hstore =>
    rw [hstore]
    exact ⟨rfl, fun e he => by cases he⟩

/-- Either nothing is changed, or the documents are there and it is storing them that does it. -/
theorem compile_cases (fs : FileSystem) (setup : Setup) (fresh : Fresh) (path : Path) :
    (compile fs setup fresh path).2 = fs ∨ ∃ scheme files,
      Scheme.load fs (schemePath fs path) = .ok scheme ∧
      filesOf fs setup fresh scheme = .ok files := by
  cases hload : Scheme.load fs (schemePath fs path) with
  | error e =>
    rw [compile, hload]
    exact Or.inl rfl
  | ok scheme =>
    cases hfiles : filesOf fs setup fresh scheme with
    | error e =>
      rw [compile, hload]
      dsimp only
      rw [compileLoaded, hfiles]
      exact Or.inl rfl
    | ok files => exact Or.inr ⟨scheme, files, rfl, hfiles⟩

/-- A compilation that goes well has stored the documents it made. -/
theorem exists_store_of_compile_ok {fs' : FileSystem} {done : Done}
    (h : compile fs setup fresh path = (.ok done, fs')) : ∃ scheme files,
      Scheme.load fs (schemePath fs path) = .ok scheme ∧
      filesOf fs setup fresh scheme = .ok files ∧ done.name = scheme.name ∧
      files.store fs setup.outputDirectory scheme.name = (.ok done.written, fs') := by
  rw [compile] at h
  split at h
  · cases h
  · next scheme hload =>
    rw [compileLoaded] at h
    split at h
    · cases h
    · next files hfiles =>
      split at h
      · cases h
      · next hstore =>
        -- the report is made of what was stored
        cases h
        exact ⟨scheme, files, hload, hfiles, rfl, hstore⟩

/-- Its name is that of a file, up to the first dot. -/
theorem exists_of_compile_ok {fs' : FileSystem} {done : Done}
    (h : compile fs setup fresh path = (.ok done, fs')) : ∃ files : SyntaxFiles, ∃ written,
      '.' ∉ done.name.toList ∧ '/' ∉ done.name.toList ∧
      files.store fs setup.outputDirectory done.name = (.ok written, fs') := by
  obtain ⟨scheme, files, hload, _, hname, hstore⟩ := exists_store_of_compile_ok h
  rw [hname]
  refine ⟨files, done.written, ?_, ?_, hstore⟩
  · rw [Scheme.name_of_load hload]
    exact Scheme.dot_nameOf _
  · rw [Scheme.name_of_load hload]
    exact Scheme.slash_nameOf _

/-- Where it fails for another reason than a file or directory, nothing has changed. -/
theorem eq_of_compile_error {fs' : FileSystem} {e : Failure}
    (h : compile fs setup fresh path = (.error e, fs'))
    (hfile : ∀ name p cause, e ≠ .making name (.file p cause)) : fs' = fs := by
  rcases compile_cases fs setup fresh path with hsame | ⟨scheme, files, hload, hfiles⟩
  · rwa [h] at hsame
  · obtain ⟨e', hstore, rfl⟩ := (compile_of_filesOf hload hfiles).2 e (by rw [h])
    obtain ⟨p, cause, rfl, _⟩ := SyntaxFiles.store_error (Prod.ext hstore rfl)
    exact absurd rfl (hfile scheme.name p cause)

/--
**Nothing is written before everything is there.** Where a compilation changes the file system, the
scheme was loaded and all three documents were made. Where it fails for any other reason than that
the output directory could not be made or one of the three files not be written, the file system is
what it was.
-/
theorem compile_changes_nothing_early (fs : FileSystem) (setup : Setup) (fresh : Fresh)
    (path : Path) :
    ((compile fs setup fresh path).2 ≠ fs → ∃ scheme files,
      Scheme.load fs (schemePath fs path) = .ok scheme ∧
      filesOf fs setup fresh scheme = .ok files) ∧
    ∀ e, (compile fs setup fresh path).1 = .error e →
      (∀ name p cause, e = .making name (.file p cause) →
        p ≠ setup.outputDirectory ∧ p ∉ Kind.all.map (·.file setup.outputDirectory name)) →
      (compile fs setup fresh path).2 = fs := by
  rcases compile_cases fs setup fresh path with hsame | ⟨scheme, files, hload, hfiles⟩
  · exact ⟨fun hne => absurd hsame hne, fun _ _ _ => hsame⟩
  · obtain ⟨_, herror⟩ := compile_of_filesOf hload hfiles
    refine ⟨fun _ => ⟨scheme, files, hload, hfiles⟩, ?_⟩
    intro e h hother
    -- the documents were there, so that only storing them can have failed
    obtain ⟨e', hstore, rfl⟩ := herror e h
    obtain ⟨p, cause, rfl, hp⟩ := SyntaxFiles.store_error (Prod.ext hstore rfl)
    obtain ⟨hdirectory, hpaths⟩ := hother scheme.name p cause rfl
    exact absurd hp (not_or.mpr ⟨hdirectory, hpaths⟩)

/-- A scheme file that asks for three documents to be extended. -/
def extensionText : String :=
  "\x7b\"deriving\": \x7b\"grammar\": \"base\", \"theme\": \"base\", \"settings\": \"base\"\x7d\x7d"

theorem load_extension (h : fs.read ⟨"/work/mine.json"⟩ = .ok extensionText.toUTF8) :
    Scheme.load fs ⟨"/work/mine.json"⟩ = .ok baseExtension := by
  have hparse : Scheme.parse extensionText
      = .ok { derivation := some ⟨"base", "base", "base", ""⟩ } := by rfl
  exact Scheme.load_of_read h hparse

/-- The file, and the grammar it asks for next to it, but not the theme. -/
def themeMissing : FileSystem where
  nodes := [(["work"], .directory), (["mine.json", "work"], .file extensionText.toUTF8),
    (["base.tmLanguage.json", "work"], .file "".toUTF8)]

theorem compile_changes_nothing_early_of_missing_theme :
    compile themeMissing ⟨⟨"/out"⟩, ⟨"/shared"⟩, none⟩ (Fresh.ofSeed []) ⟨"/work/mine.json"⟩
      = (.error (.making "mine" (.targetMissing .theme "base")), themeMissing) := by
  have hpath : schemePath themeMissing ⟨"/work/mine.json"⟩ = ⟨"/work/mine.json"⟩ := by rfl
  have hfiles : filesOf themeMissing ⟨⟨"/out"⟩, ⟨"/shared"⟩, none⟩ (Fresh.ofSeed [])
      baseExtension = .error (.targetMissing .theme "base") := by rfl
  have herror : (compile themeMissing ⟨⟨"/out"⟩, ⟨"/shared"⟩, none⟩ (Fresh.ofSeed [])
      ⟨"/work/mine.json"⟩).1 = .error (.making "mine" (.targetMissing .theme "base")) := by
    rw [compile, hpath, load_extension (by rfl)]
    dsimp only
    rw [compileLoaded, hfiles]
    rfl
  have hsame := (compile_changes_nothing_early _ _ (Fresh.ofSeed []) _).2 _ herror
    (fun _ _ _ h => by cases h)
  exact Prod.ext herror hsame

end Highlight.Compilation
