import Highlight.Proofs.Compilation.Reads
import Highlight.Proofs.Compilation.Targets
import Highlight.Proofs.Rule.Chance
import Highlight.Proofs.SyntaxFiles.Landing

/-!
# Compiling again

Where the output directory is there, a compilation is told in full by the documents it makes and by
what comes of writing them (`compile_of_writeKinds`). The documents depend on the random words only
by the colours that are left to chance, and by the identifiers of a new grammar and theme
(`filesOf_of_settled`).

A compilation that looks up none of the files it writes finds after it what it found before it. So
it succeeds again, and writes what is there already (`compile_again`).
-/

namespace Highlight.Compilation

open FileSystem
open SyntaxFiles (Kind AlikeFiles SameButIds reached verdict setDocuments baseExtension baseTargets)

variable {fs fs' : FileSystem} {setup : Setup} {fresh : Fresh} {path : Path} {scheme : Scheme}
  {files : SyntaxFiles}

/-! ## What a compilation comes to -/

/-- What is told of a loaded scheme whose documents are stored with the given verdict. -/
def told (scheme : Scheme) (rules : Nat) (verdict : Except SyntaxFiles.Error (List Path)) :
    Except Failure Done :=
  (verdict.mapError (.making scheme.name)).map fun written =>
    { name := scheme.name, origin := Origin.ofScheme scheme, rules, written }

theorem compile_of_error {e : Scheme.LoadError}
    (hload : Scheme.load fs (schemePath fs path) = .error e) :
    compile fs setup fresh path = (.error (.loading e), fs) := by
  rw [compile, hload]

theorem compile_of_filesOf_error {e : SyntaxFiles.Error}
    (hload : Scheme.load fs (schemePath fs path) = .ok scheme)
    (hfiles : filesOf fs setup fresh scheme = .error e) :
    compile fs setup fresh path = (.error (.making scheme.name e), fs) := by
  rw [compile, hload]
  dsimp only
  rw [compileLoaded, hfiles]

/-- Where the output directory is there, what comes of storing is what comes of writing. -/
theorem compile_of_writeKinds (hdir : fs.isDirectory setup.outputDirectory = true)
    (hload : Scheme.load fs (schemePath fs path) = .ok scheme)
    (hfiles : filesOf fs setup fresh scheme = .ok files) :
    compile fs setup fresh path =
      (told scheme (rulesOf fs setup fresh scheme).length
          (files.writeKinds setup.outputDirectory scheme.name Kind.all fs).1,
        (files.writeKinds setup.outputDirectory scheme.name Kind.all fs).2) := by
  rw [compile, hload]
  dsimp only
  rw [compileLoaded, hfiles]
  dsimp only
  rw [SyntaxFiles.store, makeDirectories_of_isDirectory hdir]
  dsimp only
  split <;> next hstore => rw [hstore]; rfl

/-- If each of the three files can be written, it goes well. -/
theorem compile_ok_of_write (setup : Setup) (fresh : Fresh) (hg : fs.Grounded)
    (hdir : fs.isDirectory setup.outputDirectory = true)
    (hload : Scheme.load fs (schemePath fs path) = .ok scheme)
    (hfiles : filesOf fs setup fresh scheme = .ok files)
    (hwrite : ∀ kind : Kind, ∃ fs',
      fs.write (kind.file setup.outputDirectory scheme.name) .empty = .ok fs') :
    ∃ fs', compile fs setup fresh path = (.ok ⟨scheme.name, Origin.ofScheme scheme,
        (rulesOf fs setup fresh scheme).length, destinations setup scheme.name⟩, fs') ∧
      files.writeKinds setup.outputDirectory scheme.name Kind.all fs
        = (.ok (destinations setup scheme.name), fs') ∧
      FilesWritten fs fs' := by
  have hok := SyntaxFiles.writeKinds_ok_of_write files fun kind (_ : kind ∈ Kind.all) => hwrite kind
  have hwritten : FilesWritten fs
      (files.writeKinds setup.outputDirectory scheme.name Kind.all fs).2 :=
    SyntaxFiles.filesWritten_writeKinds files Kind.all hg
  have hcompile := compile_of_writeKinds hdir hload hfiles
  generalize SyntaxFiles.writeKinds _ _ _ _ fs = stored at hok hwritten hcompile
  obtain ⟨verdict, fs'⟩ := stored
  obtain rfl : verdict = .ok (destinations setup scheme.name) := hok
  exact ⟨fs', hcompile, rfl, hwritten⟩

/-- A compilation that goes well and everything it has made by then. -/
theorem writeKinds_of_compile_ok {done : Done} (hdir : fs.isDirectory setup.outputDirectory = true)
    (h : compile fs setup fresh path = (.ok done, fs')) : ∃ scheme files written,
      Scheme.load fs (schemePath fs path) = .ok scheme ∧
      filesOf fs setup fresh scheme = .ok files ∧
      files.writeKinds setup.outputDirectory scheme.name Kind.all fs = (.ok written, fs') ∧
      told scheme (rulesOf fs setup fresh scheme).length (.ok written) = .ok done := by
  cases hload : Scheme.load fs (schemePath fs path) with
  | error e =>
    rw [compile_of_error hload] at h
    cases h
  | ok scheme =>
    cases hfiles : filesOf fs setup fresh scheme with
    | error e =>
      rw [compile_of_filesOf_error hload hfiles] at h
      cases h
    | ok files =>
      -- only then was anything stored, and the outcome is that of storing
      rw [compile_of_writeKinds hdir hload hfiles] at h
      obtain ⟨htold, hstate⟩ := Prod.mk.inj h
      obtain ⟨written, hwritten, rfl⟩ := exists_of_map_ok htold
      exact ⟨scheme, files, written, rfl, hfiles, Prod.ext (of_mapError_ok hwritten) hstate, rfl⟩

/-! ## What random words and identifiers change -/

/-- Nothing in the scheme at a path is left to chance, with all that it includes. -/
def SettledAt (fs : FileSystem) (setup : Setup) (path : Path) : Prop :=
  ∀ scheme, Scheme.load fs (schemePath fs path) = .ok scheme →
    Settled (scheme.allKeywords fs (some setup.includeDirectory)) scheme.lists

theorem rulesOf_of_settled
    (h : Settled (scheme.allKeywords fs (some setup.includeDirectory)) scheme.lists)
    (fresh fresh' : Fresh) :
    rulesOf fs setup fresh scheme = rulesOf fs setup fresh' scheme :=
  Rule.rules_batch_of_settled h 0 _ _

/-- New documents differ in their identifiers. -/
theorem alikeFiles_ofRules (scheme : Scheme) (rules : List Rule) (directory : Path)
    (base : Option SyntaxFiles.BaseColours) (ids ids' : SyntaxFiles.Ids) :
    AlikeFiles (.ofRules scheme rules directory base ids)
      (.ofRules scheme rules directory base ids') := by
  intro kind id
  cases kind <;> rfl

/-- What is made of a settled scheme is the same in every run, but for identifiers of new files. -/
theorem filesOf_of_settled
    (h : Settled (scheme.allKeywords fs (some setup.includeDirectory)) scheme.lists)
    (fresh fresh' : Fresh) :
    filesOf fs setup fresh' scheme = filesOf fs setup fresh scheme ∨
      Origin.ofScheme scheme = .new ∧ ∃ files files',
        filesOf fs setup fresh scheme = .ok files ∧
        filesOf fs setup fresh' scheme = .ok files' ∧ AlikeFiles files files' := by
  rw [filesOf, filesOf, rulesOf_of_settled h fresh fresh', SyntaxFiles.build, SyntaxFiles.build,
    Origin.ofScheme]
  cases scheme.derivation with
  | some d => exact Or.inl rfl
  | none => exact Or.inr ⟨rfl, _, _, rfl, rfl, alikeFiles_ofRules _ _ _ _ _ _⟩

/-- So it can be made in every run or in none. -/
theorem exists_filesOf_of_settled
    (h : Settled (scheme.allKeywords fs (some setup.includeDirectory)) scheme.lists)
    (hfiles : filesOf fs setup fresh scheme = .ok files) (fresh' : Fresh) :
    ∃ files', filesOf fs setup fresh' scheme = .ok files' ∧ AlikeFiles files files' ∧
      (Origin.ofScheme scheme = .extended → files' = files) := by
  rcases filesOf_of_settled h fresh fresh' with hsame | ⟨hnew, made, made', hmade, hmade', halike⟩
  · exact ⟨files, hsame.trans hfiles, fun _ _ => rfl, fun _ => rfl⟩
  · obtain rfl : made = files := Except.ok.inj (hmade.symm.trans hfiles)
    refine ⟨made', hmade', halike, fun hextended => ?_⟩
    rw [hnew] at hextended
    cases hextended

/-! ## The second time -/

/-- What cannot be made cannot be made after files were written that are not looked up. -/
theorem compile_error_of_untouched {e : SyntaxFiles.Error} (hsettled : SettledAt fs setup path)
    (hload : Scheme.load fs (schemePath fs path) = .ok scheme)
    (hfiles : filesOf fs setup fresh scheme = .error e) (hwritten : FilesWritten fs fs')
    (hu : Untouched fs fs' (lookups fs setup path)) (fresh' : Fresh) :
    compile fs' setup fresh' path = (.error (.making scheme.name e), fs') := by
  have hmade := (filesOf_of_untouched hwritten hload hu fresh').1
  rcases filesOf_of_settled (hsettled scheme hload) fresh fresh' with hsame | ⟨_, _, _, hok, _⟩
  · exact compile_of_filesOf_error (load_ok_of_untouched hwritten hu hload)
      (hmade.trans (hsame.trans hfiles))
  · rw [hfiles] at hok
    cases hok

/--
Let files be written, but none that a compilation looks up, and let it be known how its paths land
then. It makes the same documents as it would have made before, but for identifiers, and tells what
comes of storing them.
-/
theorem compile_of_untouched {r : Kind → Except FileError Location}
    (hdir : fs.isDirectory setup.outputDirectory = true) (hsettled : SettledAt fs setup path)
    (hload : Scheme.load fs (schemePath fs path) = .ok scheme)
    (hfiles : filesOf fs setup fresh scheme = .ok files) (hwritten : FilesWritten fs fs')
    (hu : Untouched fs fs' (lookups fs setup path))
    (hlands : ∀ kind ∈ Kind.all,
      Lands fs' (kind.file setup.outputDirectory scheme.name) (r kind)) (fresh' : Fresh) :
    ∃ files', AlikeFiles files files' ∧ (Origin.ofScheme scheme = .extended → files' = files) ∧
      compile fs' setup fresh' path =
        (told scheme (rulesOf fs setup fresh scheme).length
            (verdict setup.outputDirectory scheme.name r Kind.all),
          setDocuments files' (reached r Kind.all) fs') := by
  obtain ⟨files', hfiles', halike, hsame⟩ :=
    exists_filesOf_of_settled (hsettled scheme hload) hfiles fresh'
  obtain ⟨hmade, hrules⟩ := filesOf_of_untouched hwritten hload hu fresh'
  rw [← rulesOf_of_settled (hsettled scheme hload) fresh fresh'] at hrules
  have hload' := load_ok_of_untouched hwritten hu hload
  have hdir' : fs'.isDirectory setup.outputDirectory = true := by
    obtain ⟨l, hl⟩ := isDirectory_iff.mp hdir
    exact isDirectory_iff.mpr ⟨l, locate_of_ways hwritten.keepsWays hl⟩
  refine ⟨files', halike, hsame, ?_⟩
  rw [compile_of_writeKinds hdir' hload' (hmade.trans hfiles'),
    (SyntaxFiles.writeKinds_of_lands files' hlands).1, hrules]

/--
**Compiling again changes nothing.** Let the output directory be there, let no colour be left to
chance, and let none of the three files that are written be one that the compilation looks up, links
followed. If it goes well, it goes well a second time, whatever the random words are, and tells the
same. The file system is the same then but for the identifiers of a new grammar and theme, and the
very same if the scheme extends other documents.
-/
theorem compile_again {fs₁ : FileSystem} {done : Done}
    (hdir : fs.isDirectory setup.outputDirectory = true) (hsettled : SettledAt fs setup path)
    (hapart : Apart fs (lookups fs setup path)
      (destinations setup (Scheme.nameOf (schemePath fs path))))
    (h : compile fs setup fresh path = (.ok done, fs₁)) (fresh' : Fresh) :
    ∃ fs₂, compile fs₁ setup fresh' path = (.ok done, fs₂) ∧ SameButIds fs₁ fs₂ ∧
      (done.origin = .extended → ∀ l, fs₂.node? l = fs₁.node? l) := by
  obtain ⟨scheme, files, written, hload, hfiles, hstore, htold⟩ := writeKinds_of_compile_ok hdir h
  obtain ⟨place, hwritten, hplace, hstate, hverdict⟩ := SyntaxFiles.lands_of_writeKinds hstore
  -- the three files are where they were written, and land there again
  have hlands : ∀ kind ∈ Kind.all, Lands fs₁ (kind.file setup.outputDirectory scheme.name)
      (.ok (place kind)) := fun kind hkind => (hplace kind hkind).1
  have hreached := (SyntaxFiles.writeKinds_of_lands files hlands).2.2
  have hroot : ∀ e ∈ reached (fun kind => .ok (place kind)) Kind.all, e.2 ≠ [] :=
    fun e he => (hreached e he).2.2
  have hother : ∀ l, l ∉ (reached (fun kind => .ok (place kind)) Kind.all).map Prod.snd →
      fs₁.node? l = fs.node? l := by
    intro l hl
    rw [hstate, SyntaxFiles.node?_setDocuments files hroot hl]
  -- what is looked up is what it was, since each place is that of one of the three paths
  have hu : Untouched fs fs₁ (lookups fs setup path) := by
    refine untouched_of_apart hapart fun l hl => hother l fun hmem => ?_
    obtain ⟨⟨kind, m⟩, he, rfl⟩ := List.mem_map.mp hmem
    obtain ⟨hkind, hm, _⟩ := hreached _ he
    refine hl _ ?_ ((hplace kind hkind).2.trans (congrArg some (Except.ok.inj hm)))
    rw [← Scheme.name_of_load hload]
    exact List.mem_map_of_mem hkind
  -- so the same is made again, and stored in the same places
  obtain ⟨files', halike, hsame, hcompile⟩ :=
    compile_of_untouched hdir hsettled hload hfiles hwritten hu hlands fresh'
  rw [hverdict, htold] at hcompile
  refine ⟨_, hcompile, ⟨SyntaxFiles.cwd_setDocuments _ _ _, fun l => ?_⟩, fun horigin l => ?_⟩
  · have hagain := SyntaxFiles.sameButIdAt_setDocuments halike hroot fun hl => Or.inl (hother l hl)
    rwa [← hstate] at hagain
  · -- documents that are extended have no identifiers of their own
    obtain rfl : files' = files := by
      refine hsame ?_
      cases htold
      exact horigin
    rw [SyntaxFiles.node?_setDocuments_congr files' hroot (hother l), ← hstate]

/-- Documents to extend, a scheme that extends them, and a directory to write to. -/
def prepared : FileSystem where
  nodes := extendable.nodes ++ ([(["out"], .directory)] : List (Location × Node))

/-- The setup that writes there. -/
def atOut : Setup := ⟨⟨"/out"⟩, ⟨"/shared"⟩, none⟩

theorem settledAt_of_extension (hload : Scheme.load fs (schemePath fs path) = .ok baseExtension) :
    SettledAt fs setup path := by
  intro scheme hscheme
  obtain rfl : baseExtension = scheme := Except.ok.inj (hload.symm.trans hscheme)
  have hnone : Keywords.beforeCycle [] baseExtension.lists = [] := by rfl
  rw [allKeywords_baseExtension, Settled, hnone]
  exact ⟨fun _ hentry => absurd hentry List.not_mem_nil, by decide⟩

/-- A scheme that includes nothing looks up its own file, and the documents that it extends. -/
theorem lookups_of_extension (hload : Scheme.load fs (schemePath fs path) = .ok baseExtension) :
    lookups fs setup path = schemePath fs path ::
      targetLookups fs setup baseExtension ⟨"base", "base", "base", ""⟩ := by
  have hincludes : includeLookups fs setup baseExtension = [] := by
    rw [includeLookups, withIncludes_loads]
    simp [Scheme.source, baseExtension, visitAll_nil]
  rw [lookups, hload]
  dsimp only
  rw [hincludes]
  rfl

/-- Written twice, the files of the scheme are as they were. -/
theorem compile_again_of_prepared :
    ∃ done fs₁ fs₂,
      compile prepared atOut (Fresh.ofSeed []) ⟨"/work/mine.json"⟩ = (.ok done, fs₁) ∧
      compile fs₁ atOut (Fresh.ofSeed [1]) ⟨"/work/mine.json"⟩ = (.ok done, fs₂) ∧
      ∀ l, fs₂.node? l = fs₁.node? l := by
  have hload : Scheme.load prepared (schemePath prepared ⟨"/work/mine.json"⟩)
      = .ok baseExtension := by
    have hpath : schemePath prepared ⟨"/work/mine.json"⟩ = ⟨"/work/mine.json"⟩ := by rfl
    rw [hpath]
    exact load_extension (by rfl)
  have hdir : prepared.isDirectory atOut.outputDirectory = true := by rfl
  have hfiles : filesOf prepared atOut (Fresh.ofSeed []) baseExtension = .ok linkedFiles :=
    filesOf_baseExtension _ (by rfl) (by rfl) (by rfl) (by rfl) (by rfl)
  have hg : prepared.Grounded := by
    refine grounded_of_nodes rfl ?_
    simp only [prepared, extendable, SyntaxFiles.baseDocuments, List.cons_append, List.nil_append,
      List.forall_mem_cons]
    exact ⟨rfl, rfl, rfl, rfl, rfl, rfl, fun e he => by cases he⟩
  obtain ⟨fs₁, hcompile, _⟩ := compile_ok_of_write atOut (Fresh.ofSeed []) hg hdir hload hfiles
    (fun kind => by cases kind <;> exact ⟨_, rfl⟩)
  have hapart : Apart prepared (lookups prepared atOut ⟨"/work/mine.json"⟩)
      (destinations atOut (Scheme.nameOf (schemePath prepared ⟨"/work/mine.json"⟩))) := by
    have hread : (schemePath prepared ⟨"/work/mine.json"⟩ :: targetLookups prepared atOut
        baseExtension ⟨"base", "base", "base", ""⟩).map prepared.place?
          = ([["mine.json", "work"], ["base.tmLanguage.json", "work"],
              ["base.tmTheme.json", "work"], ["base.sublime-settings", "work"]] :
              List Location).map some := by rfl
    have hwritten : (destinations atOut
        (Scheme.nameOf (schemePath prepared ⟨"/work/mine.json"⟩))).map prepared.place?
          = ([["mine.tmLanguage.json", "out"], ["mine.tmTheme.json", "out"],
              ["mine.sublime-settings", "out"]] : List Location).map some := by rfl
    rw [lookups_of_extension hload]
    exact apart_of_places hread hwritten (by decide)
  obtain ⟨fs₂, hagain, _, hsame⟩ :=
    compile_again hdir (settledAt_of_extension hload) hapart hcompile (Fresh.ofSeed [1])
  exact ⟨_, fs₁, fs₂, hcompile, hagain, hsame rfl⟩

end Highlight.Compilation
