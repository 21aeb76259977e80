import Highlight.Proofs.Compilation.Repeat
import Highlight.Proofs.SyntaxFiles.Placement

/-!
# Compilations in either order

Two schemes with different names are compiled to different entries of the output directory. If none
of the paths leads on through a link there, each lands in its own entry, or fails, whatever the
other compilation has written by then (`exists_landing`). If moreover neither compilation looks up
a file of the other, each makes the same documents and stores them at the same places in either
order (`compile_elsewhere`), so that the order does not matter to the outcome
(`compilations_commute`).

One thing may be told differently. A scheme path that leads to nothing may pass through the name of
a file that the other compilation writes. It is not found before that, and not a directory after it
(`order_shows_in_error`).
-/

namespace Highlight.Compilation

open FileSystem
open SyntaxFiles (Kind AlikeFiles SameButIds baseExtension reached verdict setDocuments)

variable {fs fs' : FileSystem} {setup : Setup} {path : Path} {name : String}
  {d : Location}

/-! ## Landing in entries of the output directory -/

theorem exists_landing (hdir : fs.locate setup.outputDirectory = .ok (d, .directory))
    (hslash : '/' ∉ name.toList) (hlinks : ∀ q ∈ destinations setup name, fs.isLink q = false) :
    ∃ r : Kind → Except FileError Location, ∀ kind,
      Lands fs (Kind.file kind setup.outputDirectory name) (r kind) ∧
        ∀ l, r kind = .ok l → l = RawText.ofText (kind.fileName name) :: d ∧
          fs.place? (kind.file setup.outputDirectory name) = some l := by
  have hentry : ∀ kind : Kind, ∃ r,
      Lands fs (kind.file setup.outputDirectory name) r ∧ ∀ l, r = .ok l →
        l = RawText.ofText (kind.fileName name) :: d ∧
          fs.place? (kind.file setup.outputDirectory name) = some l := by
    intro kind
    have henters : Enters fs maxLinks setup.outputDirectory.steps
        (origin (kind.file setup.outputDirectory name) fs.cwd) d := by
      rw [origin, kind.isAbsolute_file hslash]
      exact enters_of_locate hdir
    -- the entry of each file is that of its name, unless it cannot be written to
    rcases lands_entry (SyntaxFiles.endsAt_fileName hslash kind) henters
      (hlinks _ (List.mem_map_of_mem kind.mem_all)) with ⟨e, hlands⟩ | ⟨hlands, hplace⟩
    · exact ⟨_, hlands, fun l hl => by cases hl⟩
    · exact ⟨_, hlands, fun l hl => by cases hl; exact ⟨rfl, hplace⟩⟩
  exact ⟨fun kind => (hentry kind).choose, fun kind => (hentry kind).choose_spec⟩

/-- Files of different schemes have different names. -/
theorem fileName_ne {name name' : String} (h : name ≠ name') (hdot : '.' ∉ name.toList)
    (hdot' : '.' ∉ name'.toList) (kind kind' : Kind) :
    RawText.ofText (kind.fileName name) ≠ RawText.ofText (kind'.fileName name') := by
  rw [kind.fileName_of_unending (SyntaxFiles.unending_of_not_mem_dot hdot),
    kind'.fileName_of_unending (SyntaxFiles.unending_of_not_mem_dot hdot'),
    RawText.ofText_append, RawText.ofText_append]
  exact fun heq => h (RawText.ofText_inj.mp (Kind.ending_inj heq).2)

/-! ## One compilation, before and after other files are written -/

/-- The same is told, but that a missing scheme file may be told as one with a file in its way. -/
def SameTold (path : Path) (result result' : Except Failure Done) : Prop :=
  result' = result ∨ result = .error (.loading (.unreadable path .notFound)) ∧
    result' = .error (.loading (.unreadable path .notADirectory))

theorem SameTold.eq_of_ok {result result' : Except Failure Done} {done : Done}
    (h : SameTold path result result') (hok : result = .ok done) : result' = result := by
  rcases h with hsame | ⟨herror, _⟩
  · exact hsame
  · rw [hok] at herror
    cases herror

/--
What a compilation stores in entries of the output directory, and that it does the same, but for
identifiers, after files were written that it does not look up.
-/
theorem compile_elsewhere (fresh : Fresh)
    (hdir : fs.locate setup.outputDirectory = .ok (d, .directory))
    (hsettled : SettledAt fs setup path)
    (hlinks : ∀ q ∈ destinations setup (Scheme.nameOf (schemePath fs path)), fs.isLink q = false) :
    ∃ files ps, (compile fs setup fresh path).2 = setDocuments files ps fs ∧
      FilesWritten fs (setDocuments files ps fs) ∧
      (∀ e ∈ ps,
        e.2 = RawText.ofText (Kind.fileName e.1 (Scheme.nameOf (schemePath fs path))) :: d ∧
        ∃ q ∈ destinations setup (Scheme.nameOf (schemePath fs path)), fs.place? q = some e.2) ∧
      ∀ fs' fresh', FilesWritten fs fs' → Untouched fs fs' (lookups fs setup path) →
        ∃ files', AlikeFiles files files' ∧
          SameTold (schemePath fs path) (compile fs setup fresh path).1
            (compile fs' setup fresh' path).1 ∧
          (compile fs' setup fresh' path).2 = setDocuments files' ps fs' := by
  cases hload : Scheme.load fs (schemePath fs path) with
  | error e =>
    -- nothing is stored; the scheme file may be missing in two ways
    refine ⟨⟨.null, .null, .null⟩, [], ?_, .refl fs, by simp, fun fs' fresh' hwritten hu => ?_⟩
    · rw [compile_of_error hload]
      rfl
    · refine ⟨_, fun _ _ => rfl, ?_⟩
      rw [compile_of_error hload]
      rcases load_schemePath_of_untouched hwritten hu with hsame | ⟨herror, herror'⟩
      · -- the same error
        rw [compile_of_error (hsame.trans hload)]
        exact ⟨Or.inl rfl, rfl⟩
      · -- a file of the other compilation stands in the way
        rw [compile_of_error herror']
        cases hload.symm.trans herror
        exact ⟨Or.inr ⟨rfl, rfl⟩, rfl⟩
  | ok scheme =>
    cases hfiles : filesOf fs setup fresh scheme with
    | error e =>
      -- nothing is stored, since the documents were not made
      refine ⟨⟨.null, .null, .null⟩, [], ?_, .refl fs, by simp, fun fs' fresh' hwritten hu => ?_⟩
      · rw [compile_of_filesOf_error hload hfiles]
        rfl
      · refine ⟨_, fun _ _ => rfl, ?_⟩
        rw [compile_of_filesOf_error hload hfiles,
          compile_error_of_untouched hsettled hload hfiles hwritten hu fresh']
        exact ⟨Or.inl rfl, rfl⟩
    | ok files =>
      -- all three are stored, each in its entry of the output directory
      obtain ⟨r, hr⟩ := exists_landing hdir (Scheme.slash_nameOf _) hlinks
      have hlands : ∀ kind ∈ Kind.all, Lands fs
          (Kind.file kind setup.outputDirectory scheme.name) (r kind) := by
        intro kind _
        rw [Scheme.name_of_load hload]
        exact (hr kind).1
      have hdir' := isDirectory_iff.mpr ⟨d, hdir⟩
      obtain ⟨hstore, hwritten, hreached⟩ := SyntaxFiles.writeKinds_of_lands files hlands
      have hcompile := compile_of_writeKinds hdir' hload hfiles
      rw [hstore] at hcompile
      refine ⟨files, reached r Kind.all, ?_, hwritten, fun e he => ?_, ?_⟩
      · rw [hcompile]
      · obtain ⟨hkind, hl, _⟩ := hreached e he
        obtain ⟨hentry, hplace⟩ := (hr e.1).2 e.2 hl
        exact ⟨hentry, _, List.mem_map_of_mem hkind, hplace⟩
      · -- the other files are not looked up, so the same is made and stored later
        intro fs' fresh' hwritten' hu
        obtain ⟨files', halike, _, hcompile'⟩ := compile_of_untouched hdir' hsettled hload hfiles
          hwritten' hu (fun kind hkind => (hlands kind hkind).of_filesWritten hwritten') fresh'
        refine ⟨files', halike, ?_, ?_⟩
        · rw [hcompile, hcompile']
          exact Or.inl rfl
        · rw [hcompile']

/-- What is apart from all places that are set is untouched. -/
theorem untouched_setDocuments {files : SyntaxFiles} {ps : List (Kind × Location)}
    {paths qs : List Path} (hapart : Apart fs paths qs) (hroot : ∀ e ∈ ps, e.2 ≠ [])
    (hps : ∀ e ∈ ps, ∃ q ∈ qs, fs.place? q = some e.2) :
    Untouched fs (setDocuments files ps fs) paths := by
  refine untouched_of_apart hapart fun l hl => SyntaxFiles.node?_setDocuments files hroot ?_
  intro hmem
  obtain ⟨e, he, rfl⟩ := List.mem_map.mp hmem
  obtain ⟨q, hq, hplace⟩ := hps e he
  exact hl q hq hplace

/--
**The order of two compilations does not matter** where their schemes have different names, no
colour is left to chance, neither looks up a file of the other, links followed, and none of the six
paths is itself a link. Whatever the random words are, each tells the same whether it comes first or
second, also if it fails or the other does, and in the end the file system is the same but for the
identifiers of new grammars and themes. Only for a scheme path that leads to nothing may the other
compilation put a file in the way, and then another error is told.
-/
theorem compilations_commute {p q : Path} {a a' b b' : Fresh}
    (hdir : fs.isDirectory setup.outputDirectory = true)
    (hname : Scheme.nameOf (schemePath fs p) ≠ Scheme.nameOf (schemePath fs q))
    (hsettled : SettledAt fs setup p) (hsettled' : SettledAt fs setup q)
    (hapart : Apart fs (lookups fs setup p)
      (destinations setup (Scheme.nameOf (schemePath fs q))))
    (hapart' : Apart fs (lookups fs setup q)
      (destinations setup (Scheme.nameOf (schemePath fs p))))
    (hlinks : ∀ x ∈ destinations setup (Scheme.nameOf (schemePath fs p)), fs.isLink x = false)
    (hlinks' : ∀ x ∈ destinations setup (Scheme.nameOf (schemePath fs q)), fs.isLink x = false) :
    let first := compile fs setup a p
    let second := compile first.2 setup b q
    let first' := compile fs setup b' q
    let second' := compile first'.2 setup a' p
    SameTold (schemePath fs p) first.1 second'.1 ∧ SameTold (schemePath fs q) first'.1 second.1 ∧
      SameButIds second.2 second'.2 := by
  intro first second first' second'
  obtain ⟨d, hd⟩ := isDirectory_iff.mp hdir
  obtain ⟨files, ps, hfirst, hwritten, hps, hlater⟩ :=
    compile_elsewhere a hd hsettled hlinks
  obtain ⟨others, qs, hfirst', hwritten', hqs, hlater'⟩ :=
    compile_elsewhere b' hd hsettled' hlinks'
  have hroot : ∀ e ∈ ps, e.2 ≠ [] := fun e he => by simp [(hps e he).1]
  have hroot' : ∀ e ∈ qs, e.2 ≠ [] := fun e he => by simp [(hqs e he).1]
  -- files of schemes with different names have different names
  have hdisjoint : ∀ m ∈ ps.map Prod.snd, m ∉ qs.map Prod.snd := by
    intro m hm hm'
    obtain ⟨e, he, rfl⟩ := List.mem_map.mp hm
    obtain ⟨e', he', heq⟩ := List.mem_map.mp hm'
    rw [(hps e he).1, (hqs e' he').1] at heq
    exact fileName_ne hname (Scheme.dot_nameOf _) (Scheme.dot_nameOf _) e.1 e'.1
      (List.cons.inj heq).1.symm
  -- each compilation goes on from the files of the other as if they were not there
  obtain ⟨files', halike, htold, hstate⟩ := hlater _ a' hwritten'
    (untouched_setDocuments hapart hroot' fun e he => (hqs e he).2)
  obtain ⟨others', halike', htold', hstate'⟩ := hlater' _ b hwritten
    (untouched_setDocuments hapart' hroot fun e he => (hps e he).2)
  rw [← hfirst'] at htold hstate
  rw [← hfirst] at htold' hstate'
  refine ⟨htold, htold', ?_⟩
  -- the six places are different, so that it does not matter which are set first
  have hcomm := SyntaxFiles.sameButIds_setDocuments_comm halike halike' hroot hroot' hdisjoint fs
  rwa [← hfirst, ← hfirst', ← hstate, ← hstate'] at hcomm

/-! ## Two small schemes -/

/-- A scheme file with a keyword of its own, and another one to include. -/
def smallText : String :=
  "\x7b\"keywords\": \x7b\"x\": \x7b\"bold\": true\x7d\x7d, \"include\": [\"more\"]\x7d"

/-- The document it includes. -/
def moreText : String := "\x7b\"keywords\": \x7b\"y\": \"red\"\x7d\x7d"

/-- The scheme. -/
def smallScheme : Scheme where
  name := "small"
  directory := ⟨"/work"⟩
  keywords := [("x", .full { font := ⟨true, false⟩ })]
  includes := ["more"]

/-- All its keywords. -/
def smallKeywords : Keywords :=
  [("x", .full { font := ⟨true, false⟩ }), ("y", .colour (.literal "red"))]

/-- Its rules. -/
def smallRules : List Rule :=
  [⟨"x", "\\bx\\b", "x0", none, none, ⟨true, false⟩⟩,
    ⟨"y", "\\by\\b", "y1", some ⟨255, 0, 0⟩, none, {}⟩]

/-- That scheme and what it includes, a scheme that extends others, and a directory to write to. -/
def twoSchemes : FileSystem where
  nodes := prepared.nodes ++ ([(["small.json", "work"], .file smallText.toUTF8),
    (["more.json", "work"], .file moreText.toUTF8)] : List (Location × Node))

theorem load_smallScheme : Scheme.load twoSchemes (schemePath twoSchemes ⟨"/work/small.json"⟩)
    = .ok smallScheme := by
  have hparse : Scheme.parse smallText = .ok {
      keywords := [("x", .full { font := ⟨true, false⟩ })]
      includes := ["more"] } := by rfl
  have hpath : schemePath twoSchemes ⟨"/work/small.json"⟩ = ⟨"/work/small.json"⟩ := by rfl
  rw [hpath]
  exact Scheme.load_of_read (by rfl) hparse

theorem load_more : (twoSchemes.loader [⟨"/work"⟩, ⟨"/shared"⟩]).load "more"
    = some ⟨[("y", .colour (.literal "red"))], []⟩ := by rfl

theorem loads_smallScheme : (smallScheme.source.withIncludes
    (twoSchemes.loader [⟨"/work"⟩, ⟨"/shared"⟩]) "small").loads = ["more"] := by
  have hincludes : smallScheme.source.includes = ["more"] := rfl
  rw [withIncludes_loads, hincludes, visitAll_cons_of_not_mem (by decide),
    Loader.document_of_some load_more, List.append_nil, visitAll_nil]

theorem allKeywords_smallScheme :
    smallScheme.allKeywords twoSchemes (some ⟨"/shared"⟩) = smallKeywords := by
  have hloads : (smallScheme.source.withIncludes
    (twoSchemes.loader (smallScheme.directory :: (some ⟨"/shared"⟩ : Option Path).toList))
    smallScheme.name).loads = ["more"] := loads_smallScheme
  rw [Scheme.allKeywords, withIncludes_keywords, hloads]
  rfl

theorem filesOf_smallScheme (fresh : Fresh) :
    rulesOf twoSchemes atOut fresh smallScheme = smallRules ∧
      filesOf twoSchemes atOut fresh smallScheme
        = .ok (.ofRules smallScheme smallRules atOut.outputDirectory none fresh.ids) := by
  have hall : smallScheme.allKeywords twoSchemes (some atOut.includeDirectory) = smallKeywords :=
    allKeywords_smallScheme
  have hrules : rulesOf twoSchemes atOut fresh smallScheme = smallRules := by
    rw [rulesOf, hall]
    rfl
  refine ⟨hrules, ?_⟩
  rw [filesOf, hrules]
  rfl

theorem settledAt_smallScheme : SettledAt twoSchemes atOut ⟨"/work/small.json"⟩ := by
  intro scheme hscheme
  obtain rfl : smallScheme = scheme := Except.ok.inj (load_smallScheme.symm.trans hscheme)
  have hkeywords : Keywords.beforeCycle smallKeywords smallScheme.lists = smallKeywords := by rfl
  have hall : smallScheme.allKeywords twoSchemes (some atOut.includeDirectory) = smallKeywords :=
    allKeywords_smallScheme
  rw [hall, Settled, hkeywords]
  refine ⟨fun entry hentry role => ?_, fun _ _ hmem => absurd hmem List.not_mem_nil⟩
  revert entry
  cases role <;> decide

theorem lookups_smallScheme : lookups twoSchemes atOut ⟨"/work/small.json"⟩
    = [⟨"/work/small.json"⟩, ⟨"/work/more.json"⟩] := by
  have hloads : (smallScheme.source.withIncludes
      (twoSchemes.loader [smallScheme.directory, atOut.includeDirectory])
      smallScheme.name).loads = ["more"] := loads_smallScheme
  rw [lookups, load_smallScheme]
  dsimp only
  rw [includeLookups, hloads]
  rfl

theorem grounded_twoSchemes : twoSchemes.Grounded := by
  refine grounded_of_nodes rfl ?_
  simp only [twoSchemes, prepared, extendable, SyntaxFiles.baseDocuments, List.cons_append,
    List.nil_append, List.forall_mem_cons]
  exact ⟨rfl, rfl, rfl, rfl, rfl, rfl, rfl, rfl, fun e he => by cases he⟩

theorem noLinks_twoSchemes : ∀ l t, twoSchemes.node? l ≠ some (.link t) := by
  intro l t h
  have hmem := mem_of_node? h (by simp)
  simp [twoSchemes, prepared, extendable, SyntaxFiles.baseDocuments] at hmem

theorem exists_compile_smallScheme : ∃ fs',
    compile twoSchemes atOut (Fresh.ofSeed []) ⟨"/work/small.json"⟩
        = (.ok ⟨"small", .new, 2, destinations atOut "small"⟩, fs') ∧
      FilesWritten twoSchemes fs' := by
  obtain ⟨hrules, hfiles⟩ := filesOf_smallScheme (Fresh.ofSeed [])
  obtain ⟨fs', hcompile, _, hwritten⟩ := compile_ok_of_write atOut (Fresh.ofSeed [])
    grounded_twoSchemes (by rfl) load_smallScheme hfiles
    (fun kind => by cases kind <;> exact ⟨_, rfl⟩)
  rw [hrules] at hcompile
  exact ⟨fs', hcompile, hwritten⟩

theorem load_mine : Scheme.load twoSchemes (schemePath twoSchemes ⟨"/work/mine.json"⟩)
    = .ok baseExtension := by
  have hpath : schemePath twoSchemes ⟨"/work/mine.json"⟩ = ⟨"/work/mine.json"⟩ := by rfl
  rw [hpath]
  exact load_extension (by rfl)

theorem exists_compile_mine : ∃ fs', compile twoSchemes atOut (Fresh.ofSeed []) ⟨"/work/mine.json"⟩
    = (.ok ⟨"mine", .extended, 0, destinations atOut "mine"⟩, fs') := by
  have hfiles : filesOf twoSchemes atOut (Fresh.ofSeed []) baseExtension = .ok linkedFiles :=
    filesOf_baseExtension _ (by rfl) (by rfl) (by rfl) (by rfl) (by rfl)
  obtain ⟨fs', hcompile, _⟩ := compile_ok_of_write atOut (Fresh.ofSeed []) grounded_twoSchemes
    (by rfl) load_mine hfiles (fun kind => by cases kind <;> exact ⟨_, rfl⟩)
  rw [rulesOf, allKeywords_baseExtension] at hcompile
  exact ⟨fs', hcompile⟩

/-- Neither looks up what the other writes. -/
theorem apart_twoSchemes :
    Apart twoSchemes (lookups twoSchemes atOut ⟨"/work/small.json"⟩)
        (destinations atOut (Scheme.nameOf (schemePath twoSchemes ⟨"/work/mine.json"⟩))) ∧
      Apart twoSchemes (lookups twoSchemes atOut ⟨"/work/mine.json"⟩)
        (destinations atOut (Scheme.nameOf (schemePath twoSchemes ⟨"/work/small.json"⟩))) := by
  rw [lookups_smallScheme, lookups_of_extension load_mine]
  have hsmall : [⟨"/work/small.json"⟩, ⟨"/work/more.json"⟩].map twoSchemes.place?
      = ([["small.json", "work"], ["more.json", "work"]] : List Location).map some := by rfl
  have hmine : (schemePath twoSchemes ⟨"/work/mine.json"⟩ :: targetLookups twoSchemes atOut
      baseExtension ⟨"base", "base", "base", ""⟩).map twoSchemes.place?
        = ([["mine.json", "work"], ["base.tmLanguage.json", "work"],
            ["base.tmTheme.json", "work"], ["base.sublime-settings", "work"]] :
            List Location).map some := by rfl
  have hsmallWritten : (destinations atOut
      (Scheme.nameOf (schemePath twoSchemes ⟨"/work/small.json"⟩))).map twoSchemes.place?
        = ([["small.tmLanguage.json", "out"], ["small.tmTheme.json", "out"],
            ["small.sublime-settings", "out"]] : List Location).map some := by rfl
  have hmineWritten : (destinations atOut
      (Scheme.nameOf (schemePath twoSchemes ⟨"/work/mine.json"⟩))).map twoSchemes.place?
        = ([["mine.tmLanguage.json", "out"], ["mine.tmTheme.json", "out"],
            ["mine.sublime-settings", "out"]] : List Location).map some := by rfl
  exact ⟨apart_of_places hsmall hmineWritten (by decide),
    apart_of_places hmine hsmallWritten (by decide)⟩

/-- The one includes a document and the other extends three. Both go well in either order. -/
theorem compilations_commute_of_twoSchemes :
    let first := compile twoSchemes atOut (Fresh.ofSeed []) ⟨"/work/small.json"⟩
    let second := compile first.2 atOut (Fresh.ofSeed []) ⟨"/work/mine.json"⟩
    let first' := compile twoSchemes atOut (Fresh.ofSeed []) ⟨"/work/mine.json"⟩
    let second' := compile first'.2 atOut (Fresh.ofSeed []) ⟨"/work/small.json"⟩
    first.1 = .ok ⟨"small", .new, 2, destinations atOut "small"⟩ ∧ second'.1 = first.1 ∧
      first'.1 = .ok ⟨"mine", .extended, 0, destinations atOut "mine"⟩ ∧ second.1 = first'.1 ∧
      SameButIds second.2 second'.2 := by
  obtain ⟨_, hsmall, _⟩ := exists_compile_smallScheme
  obtain ⟨_, hmine⟩ := exists_compile_mine
  have hfirst := congrArg Prod.fst hsmall
  have hfirst' := congrArg Prod.fst hmine
  have hlinks (x : Path) : twoSchemes.isLink x = false := isLink_of_no_links noLinks_twoSchemes x
  obtain ⟨hsmallApart, hmineApart⟩ := apart_twoSchemes
  obtain ⟨htold, htold', hsame⟩ :=
    @compilations_commute twoSchemes atOut _ _ (.ofSeed []) (.ofSeed []) (.ofSeed []) (.ofSeed [])
      (by rfl) (by decide) settledAt_smallScheme (settledAt_of_extension load_mine) hsmallApart
      hmineApart (fun x _ => hlinks x) (fun x _ => hlinks x)
  exact ⟨hfirst, htold.eq_of_ok hfirst, hfirst', htold'.eq_of_ok hfirst', hsame⟩

/-! ## A missing scheme file -/

/-- A scheme file without anything in it. -/
theorem load_empty {p : Path} (h : fs.read p = .ok "\x7b\x7d".toUTF8) :
    Scheme.load fs p = .ok (({} : Scheme).placed p) :=
  Scheme.load_of_read h (by rfl)

theorem allKeywords_empty (fs : FileSystem) (p : Path) (shared : Option Path) :
    (({} : Scheme).placed p).allKeywords fs shared = [] := by
  rw [Scheme.allKeywords, withIncludes_keywords, withIncludes_loads]
  simp [Scheme.source, Scheme.placed, visitAll_nil]

theorem settledAt_of_empty (h : fs.read (schemePath fs path) = .ok "\x7b\x7d".toUTF8) :
    SettledAt fs setup path := by
  intro scheme hscheme
  obtain rfl := Except.ok.inj (hscheme.symm.trans (load_empty h))
  have hnone : Keywords.beforeCycle [] (({} : Scheme).placed (schemePath fs path)).lists = [] := by
    rfl
  rw [allKeywords_empty, Settled, hnone]
  exact ⟨fun _ hentry => absurd hentry List.not_mem_nil,
    fun _ _ hmem => absurd hmem List.not_mem_nil⟩

/-- All that is looked up for an empty scheme is its file. -/
theorem lookups_of_empty (h : fs.read (schemePath fs path) = .ok "\x7b\x7d".toUTF8)
    (hbase : setup.baseTheme = none) : lookups fs setup path = [schemePath fs path] := by
  have hincludes : includeLookups fs setup (({} : Scheme).placed (schemePath fs path)) = [] := by
    rw [includeLookups, withIncludes_loads]
    simp [Scheme.source, Scheme.placed, visitAll_nil]
  rw [lookups, load_empty h]
  dsimp only
  rw [hincludes, hbase]
  rfl

/-- An empty scheme, and a directory to write to. -/
def oneScheme : FileSystem where
  nodes := [(["a.json"], .file "\x7b\x7d".toUTF8), (["out"], .directory)]

/-- A path that leads to nothing, since there is no such directory. -/
def blockable : Path := ⟨"/out/a.tmLanguage.json/b.json"⟩

theorem load_blockable : Scheme.load oneScheme (schemePath oneScheme blockable)
    = .error (.unreadable blockable .notFound) := by rfl

theorem read_oneScheme : oneScheme.read (schemePath oneScheme ⟨"/a.json"⟩)
    = .ok "\x7b\x7d".toUTF8 := by rfl

/-- The other compilation puts its grammar in the way. -/
theorem compile_blockable_later :
    (compile (compile oneScheme atOut (Fresh.ofSeed []) ⟨"/a.json"⟩).2 atOut (Fresh.ofSeed [])
      blockable).1 = .error (.loading (.unreadable blockable .notADirectory)) := by
  have hcompile : compile oneScheme atOut (Fresh.ofSeed []) ⟨"/a.json"⟩ = _ :=
    compile_of_writeKinds (by rfl) (load_empty read_oneScheme) rfl
  rw [hcompile]
  decide +kernel

/-- That the file is missing is told in one order, and that it is no directory in the other. -/
theorem order_shows_in_error :
    oneScheme.isDirectory atOut.outputDirectory = true ∧
      Scheme.nameOf (schemePath oneScheme ⟨"/a.json"⟩)
        ≠ Scheme.nameOf (schemePath oneScheme blockable) ∧
      SettledAt oneScheme atOut ⟨"/a.json"⟩ ∧ SettledAt oneScheme atOut blockable ∧
      Apart oneScheme (lookups oneScheme atOut ⟨"/a.json"⟩)
        (destinations atOut (Scheme.nameOf (schemePath oneScheme blockable))) ∧
      Apart oneScheme (lookups oneScheme atOut blockable)
        (destinations atOut (Scheme.nameOf (schemePath oneScheme ⟨"/a.json"⟩))) ∧
      (∀ x ∈ destinations atOut (Scheme.nameOf (schemePath oneScheme ⟨"/a.json"⟩))
          ++ destinations atOut (Scheme.nameOf (schemePath oneScheme blockable)),
        oneScheme.isLink x = false) ∧
      (compile oneScheme atOut (Fresh.ofSeed []) blockable).1
        ≠ (compile (compile oneScheme atOut (Fresh.ofSeed []) ⟨"/a.json"⟩).2 atOut
          (Fresh.ofSeed []) blockable).1 := by
  have hlookups : lookups oneScheme atOut blockable = [blockable] := by
    rw [lookups, load_blockable]
    rfl
  refine ⟨by rfl, by decide, settledAt_of_empty read_oneScheme, ?_, ?_, ?_, by decide +kernel, ?_⟩
  · -- the scheme that is missing leaves nothing to chance
    intro scheme hscheme
    rw [load_blockable] at hscheme
    cases hscheme
  · rw [lookups_of_empty read_oneScheme rfl]
    decide +kernel
  · rw [hlookups]
    decide +kernel
  · -- in the other order its path goes on behind a file
    rw [compile_of_error load_blockable, compile_blockable_later]
    simp

end Highlight.Compilation
