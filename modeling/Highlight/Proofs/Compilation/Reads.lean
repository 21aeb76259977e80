import Highlight.Compilation.Lookups
import Highlight.Proofs.Compilation.Outcome
import Highlight.Proofs.FileSystem.Places

/-!
# What the outcome of a compilation depends on

Let files be written, but none at the place of a path that a compilation looks up. Then it finds the
same documents, wherever it looks for one after another: the first file is the same, so that the
paths after it do not matter. What was found to be missing before may be told as a file in the way,
which makes a difference to the scheme file only, since only there the error is told.
-/

namespace Highlight.Compilation

open FileSystem
open SyntaxFiles (Kind Targets Error coincide documentAt target)

variable {fs fs' : FileSystem} {setup : Setup} {fresh : Fresh} {path : Path} {scheme : Scheme}
  {directories ps : List Path} {p : Path}

/-! ## Looking for the first file -/

theorem mem_tried_of_find? (h : ps.find? fs.isFile = some p) : p ∈ tried fs ps := by
  induction ps with
  | nil => cases h
  | cons q ps ih =>
    rw [tried]
    by_cases hq : fs.isFile q = true
    · rw [List.find?_cons_of_pos hq] at h
      rw [if_pos hq]
      exact List.mem_singleton.mpr (Option.some.inj h).symm
    · rw [List.find?_cons_of_neg hq] at h
      rw [if_neg hq]
      exact List.mem_cons_of_mem _ (ih h)

theorem find?_of_untouched (h : FilesWritten fs fs') (hu : Untouched fs fs' (tried fs ps)) :
    ps.find? fs'.isFile = ps.find? fs.isFile := by
  induction ps with
  | nil => rfl
  | cons q ps ih =>
    rw [tried] at hu
    by_cases hq : fs.isFile q = true
    · -- the first path is a file, before and after
      rw [if_pos hq] at hu
      have hq' : fs'.isFile q = true := (isFile_of_untouched h hu List.mem_cons_self).trans hq
      rw [List.find?_cons_of_pos hq, List.find?_cons_of_pos hq']
    · -- it is none, before and after, so the others are tried
      rw [if_neg hq] at hu
      have hq' : ¬fs'.isFile q = true := by
        rwa [isFile_of_untouched h hu List.mem_cons_self]
      rw [List.find?_cons_of_neg hq, List.find?_cons_of_neg hq']
      exact ih (hu.subset (List.subset_cons_self _ _))

/-! ## Schemes and what they include -/

theorem load_of_isFile (h : FilesWritten fs fs') (hu : Untouched fs fs' ps) (hp : p ∈ ps)
    (hfile : fs.isFile p = true) : Scheme.load fs' p = Scheme.load fs p := by
  rw [Scheme.load, Scheme.load, readText_of_isFile h hu hp hfile]

/-- The scheme file is loaded as before, but that the error may be another if it is missing. -/
theorem load_of_untouched (h : FilesWritten fs fs') (hu : Untouched fs fs' ps) (hp : p ∈ ps) :
    Scheme.load fs' p = Scheme.load fs p ∨
      Scheme.load fs p = .error (.unreadable p .notFound) ∧
        Scheme.load fs' p = .error (.unreadable p .notADirectory) := by
  rw [Scheme.load, Scheme.load]
  rcases readText_of_untouched h hu hp with hr | ⟨hr, hr'⟩
  · rw [hr]
    exact Or.inl rfl
  · rw [hr, hr']
    exact Or.inr ⟨rfl, rfl⟩

theorem load_schemePath_of_untouched (h : FilesWritten fs fs')
    (hu : Untouched fs fs' (lookups fs setup path)) :
    Scheme.load fs' (schemePath fs' path) = Scheme.load fs (schemePath fs path) ∨
      Scheme.load fs (schemePath fs path)
          = .error (.unreadable (schemePath fs path) .notFound) ∧
        Scheme.load fs' (schemePath fs' path)
          = .error (.unreadable (schemePath fs path) .notADirectory) := by
  have hpath : schemePath fs' path = schemePath fs path := by
    rw [schemePath, schemePath, h.cwd]
  rw [hpath]
  exact load_of_untouched h hu List.mem_cons_self

theorem load_ok_of_untouched (h : FilesWritten fs fs')
    (hu : Untouched fs fs' (lookups fs setup path))
    (hload : Scheme.load fs (schemePath fs path) = .ok scheme) :
    Scheme.load fs' (schemePath fs' path) = .ok scheme := by
  rcases load_schemePath_of_untouched h hu with hsame | ⟨herror, _⟩
  · exact hsame.trans hload
  · rw [hload] at herror
    cases herror

theorem loadInclude_of_untouched {name : String} (h : FilesWritten fs fs')
    (hu : Untouched fs fs' (tried fs (directories.map (Scheme.includeFile · name)))) :
    Scheme.loadInclude fs' directories name = Scheme.loadInclude fs directories name := by
  rw [Scheme.loadInclude, Scheme.loadInclude, find?_of_untouched h hu]
  split
  · rfl
  · next file hfind =>
    rw [load_of_isFile h hu (mem_tried_of_find? hfind) (List.find?_some hfind)]

theorem rulesOf_of_untouched (h : FilesWritten fs fs')
    (hu : Untouched fs fs' (includeLookups fs setup scheme)) (fresh : Fresh) :
    rulesOf fs' setup fresh scheme = rulesOf fs setup fresh scheme := by
  have hkeywords : scheme.allKeywords fs' (some setup.includeDirectory)
      = scheme.allKeywords fs (some setup.includeDirectory) := by
    refine congrArg Gathered.keywords (withIncludes_congr fun name hname => ?_)
    refine loadInclude_of_untouched h (hu.subset fun q hq => ?_)
    exact List.mem_flatMap.mpr ⟨name, hname, hq⟩
  rw [rulesOf, rulesOf, hkeywords]

/-! ## The documents that are extended -/

theorem documentAt_of_isFile (h : FilesWritten fs fs') (hu : Untouched fs fs' ps) (hp : p ∈ ps)
    (hfile : fs.isFile p = true) : documentAt fs' p = documentAt fs p := by
  rw [documentAt, documentAt, readText_of_isFile h hu hp hfile]

theorem target_ok_iff {kind : Kind} {name : String} :
    target fs directories kind name = .ok p ↔
      (directories.map (kind.file · name)).find? fs.isFile = some p := by
  rw [target]
  split
  · next hfind => rw [hfind]; simp
  · next hfind => rw [hfind]; simp

/-- A target is looked for as before, and if there is one, so is what comes after it. -/
theorem target_of_untouched {kind : Kind} {name : String} {rest : List Path}
    (h : FilesWritten fs fs')
    (hu : Untouched fs fs' (targetLookupsFrom fs directories kind name rest)) :
    target fs' directories kind name = target fs directories kind name ∧
      ∀ p, target fs directories kind name = .ok p → Untouched fs fs' (p :: rest) := by
  have htried := hu.subset (List.subset_append_left _ _)
  constructor
  · rw [target, target, find?_of_untouched h htried]
  · intro p hp
    rw [target_ok_iff] at hp
    refine hu.subset (List.cons_subset.mpr ⟨?_, ?_⟩)
    · exact List.mem_append_left _ (mem_tried_of_find? hp)
    · intro q hq
      refine List.mem_append_right _ ?_
      rwa [if_pos]
      exact List.any_eq_true.mpr ⟨p, List.mem_of_find?_eq_some hp, List.find?_some hp⟩

theorem find_of_untouched {d : Derivation} (h : FilesWritten fs fs')
    (hu : Untouched fs fs' (targetLookups fs setup scheme d)) :
    Targets.find fs' [scheme.directory, setup.outputDirectory] d
      = Targets.find fs [scheme.directory, setup.outputDirectory] d := by
  obtain ⟨hgrammar, hu⟩ := target_of_untouched h hu
  rw [Targets.find, Targets.find, hgrammar]
  refine bind_congr_ok fun grammar hok => ?_
  obtain ⟨htheme, hu⟩ := target_of_untouched h ((hu grammar hok).subset (List.subset_cons_self _ _))
  rw [htheme]
  refine bind_congr_ok fun theme hok => ?_
  obtain ⟨hsettings, _⟩ := target_of_untouched h ((hu theme hok).subset (List.subset_cons_self _ _))
  rw [hsettings]

/-- All targets that are found were looked up. -/
theorem untouched_of_find {d : Derivation} {targets : Targets} (h : FilesWritten fs fs')
    (hu : Untouched fs fs' (targetLookups fs setup scheme d))
    (hfind : Targets.find fs [scheme.directory, setup.outputDirectory] d = .ok targets) :
    Untouched fs fs' [targets.grammar, targets.theme, targets.settings] := by
  obtain ⟨grammar, hok, hfind⟩ := exists_of_bind_ok hfind
  obtain ⟨theme, hok', hfind⟩ := exists_of_bind_ok hfind
  obtain ⟨settings, hok'', hfind⟩ := exists_of_bind_ok hfind
  cases hfind
  -- each target is a path that was tried for it
  have hgrammar := (target_of_untouched h hu).2 grammar hok
  have htheme := (target_of_untouched h (hgrammar.subset (List.subset_cons_self _ _))).2 theme hok'
  have hsettings :=
    (target_of_untouched h (htheme.subset (List.subset_cons_self _ _))).2 settings hok''
  intro p hp
  simp only [List.mem_cons, List.not_mem_nil, or_false] at hp
  rcases hp with rfl | rfl | rfl
  · exact hgrammar p List.mem_cons_self
  · exact htheme p List.mem_cons_self
  · exact hsettings p List.mem_cons_self

/-- Whether a path leads to the same file as one that is there does not change. -/
theorem coincide_of_filesWritten {q : Path} (h : FilesWritten fs fs') (hp : fs.isFile p = true) :
    coincide fs' p q = coincide fs p q := by
  obtain ⟨l, c, hl⟩ := isFile_iff.mp hp
  have hnode : fs.node? l ≠ none := by simp [node?_of_locate hl]
  have hcanonical : fs.canonical p = .ok l := canonical_of_locate hl
  have hlater : fs'.canonical p = .ok l := (canonical_of_filesWritten h hnode).mpr hcanonical
  rw [Bool.eq_iff_iff, SyntaxFiles.coincide_iff hcanonical, SyntaxFiles.coincide_iff hlater,
    canonical_of_filesWritten h hnode]

theorem extending_of_untouched {d : Derivation} {rules : List Rule} (h : FilesWritten fs fs')
    (hu : Untouched fs fs' (targetLookups fs setup scheme d)) :
    SyntaxFiles.extending fs' scheme d rules setup.outputDirectory
      = SyntaxFiles.extending fs scheme d rules setup.outputDirectory := by
  rw [SyntaxFiles.extending, SyntaxFiles.extending, find_of_untouched h hu]
  refine bind_congr_ok fun targets hfind => ?_
  have htargets := untouched_of_find h hu hfind
  -- the targets are files, so their documents are told by what they hold
  have hfile : ∀ kind, fs.isFile (targets.get kind) = true := fun kind =>
    (SyntaxFiles.find_ok hfind kind).1
  have hcheck : targets.check fs' setup.outputDirectory scheme.name
      = targets.check fs setup.outputDirectory scheme.name := by
    simp only [Targets.check, coincide_of_filesWritten h (hfile _)]
  have hgrammar : documentAt fs' targets.grammar = documentAt fs targets.grammar :=
    documentAt_of_isFile h htargets (by simp) (hfile .grammar)
  have htheme : documentAt fs' targets.theme = documentAt fs targets.theme :=
    documentAt_of_isFile h htargets (by simp) (hfile .theme)
  have hsettings : documentAt fs' targets.settings = documentAt fs targets.settings :=
    documentAt_of_isFile h htargets (by simp) (hfile .settings)
  rw [hcheck, hgrammar, htheme, hsettings]

/-! ## The documents that are made -/

theorem chosenBase?_of_untouched (h : FilesWritten fs fs')
    (hu : Untouched fs fs' setup.baseTheme.toList) :
    chosenBase? fs' setup = chosenBase? fs setup := by
  rw [chosenBase?, chosenBase?]
  cases hbase : setup.baseTheme with
  | none => rfl
  | some theme =>
    rw [hbase] at hu
    dsimp only
    rw [documentAt, documentAt]
    rcases readText_of_untouched h hu List.mem_cons_self with hr | ⟨hr, hr'⟩
    · rw [hr]
    · rw [hr, hr']

/-- **What a compilation makes depends on what it looks up only.** -/
theorem filesOf_of_untouched (h : FilesWritten fs fs')
    (hload : Scheme.load fs (schemePath fs path) = .ok scheme)
    (hu : Untouched fs fs' (lookups fs setup path)) (fresh : Fresh) :
    filesOf fs' setup fresh scheme = filesOf fs setup fresh scheme ∧
      rulesOf fs' setup fresh scheme = rulesOf fs setup fresh scheme := by
  rw [lookups, hload] at hu
  have hrest := hu.subset (List.subset_cons_self _ _)
  -- the rules come of what is included
  have hrules := rulesOf_of_untouched h (hrest.subset (List.subset_append_left _ _)) fresh
  have hlast := hrest.subset (List.subset_append_right _ _)
  refine ⟨?_, hrules⟩
  rw [filesOf, filesOf, hrules, SyntaxFiles.build, SyntaxFiles.build]
  cases hd : scheme.derivation with
  | some d =>
    -- the documents to extend
    rw [hd] at hlast
    exact extending_of_untouched h hlast
  | none =>
    -- the base theme
    rw [hd] at hlast
    dsimp only
    rw [chosenBase?_of_untouched h hlast]

end Highlight.Compilation
