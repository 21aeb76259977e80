import Highlight.Proofs.Compilation.Order

/-!
# What becomes of the sources

A compilation writes three files, and without links these stand under their own names. So any other
file has the bytes it had before, whatever comes of the compilation (`read_compile`): the scheme and
all that it includes, wherever the directories are (`compile_keeps_sources`).

Nothing keeps a scheme from standing where one of its own syntax files goes. It is replaced then,
like any file that is in that place (`compile_replaces_scheme`).
-/

namespace Highlight.Compilation

open FileSystem
open SyntaxFiles (Kind fileContent reached setDocuments)

variable {fs fs' : FileSystem} {setup : Setup} {fresh : Fresh} {path p : Path} {l : Location}
  {content : ByteArray}

/-- The files of the documents that a scheme includes. -/
def includedFiles (fs : FileSystem) (setup : Setup) (scheme : Scheme) : List Path :=
  let directories := [scheme.directory, setup.includeDirectory]
  let names := (scheme.source.withIncludes (fs.loader directories) scheme.name).loads
  names.filterMap fun name => (directories.map (Scheme.includeFile · name)).find? fs.isFile

/-- The scheme file that a compilation is given, and the files of all documents it includes. -/
def sources (fs : FileSystem) (setup : Setup) (path : Path) : List Path :=
  schemePath fs path :: match Scheme.load fs (schemePath fs path) with
    | .error _ => []
    | .ok scheme => includedFiles fs setup scheme

/-! ## Files that are kept -/

/-- Where there are no links, a file of the kind stands under its own name. -/
theorem head?_of_locate {name : String} {n : Node} (hlinks : ∀ l t, fs.node? l ≠ some (.link t))
    (hslash : '/' ∉ name.toList) (kind : Kind)
    (h : fs.locate (kind.file setup.outputDirectory name) = .ok (l, n)) :
    l.head? = some (RawText.ofText (kind.fileName name)) := by
  have hway : fs.LeadsTo (kind.file setup.outputDirectory name) l := leadsTo_of_locate h
  rw [LeadsTo, (SyntaxFiles.endsAt_fileName hslash kind).steps] at hway
  obtain ⟨d, rfl⟩ := hway.last_of_no_links hlinks
  rfl

/-- The location is that of the file of a kind, and has its name. -/
def IsDestination (fs : FileSystem) (setup : Setup) (name : String) (l : Location) : Prop :=
  ∃ kind : Kind, l.head? = some (RawText.ofText (kind.fileName name)) ∧
    fs.canonical (kind.file setup.outputDirectory name) = .ok l

/-- Storing changes the files in three places only. -/
theorem read_store_or {files : SyntaxFiles} {name : String} (hg : fs.Grounded)
    (hlinks : ∀ l t, fs.node? l ≠ some (.link t)) (hslash : '/' ∉ name.toList)
    (hp : fs.locate p = .ok (l, .file content)) :
    (files.store fs setup.outputDirectory name).2.read p = .ok content ∨
      IsDestination (files.store fs setup.outputDirectory name).2 setup name l := by
  have hl : fs.node? l = some (.file content) := (locate_file_iff.mp hp).2
  have hread : ∀ {fs'}, Keeps fs fs' → fs'.node? l = some (.file content) →
      fs'.read p = .ok content := by
    intro fs' hkeeps hl'
    obtain ⟨c, hn, hp'⟩ := locate_of_keeps hkeeps hp
    rw [hl'] at hn
    cases hn
    exact read_of_locate hp'
  have hmade := directoriesMade_makeDirectories fs setup.outputDirectory
  have hgmade := grounded_makeDirectories hg setup.outputDirectory
  rw [SyntaxFiles.store]
  split
  · next heq =>
    -- the output directory could not be made, so no file was written
    rw [heq] at hmade
    exact Or.inl (hread hmade.keeps (hmade.node l _ hl))
  · next now heq =>
    rw [heq] at hmade hgmade
    have hlnow := hmade.node l _ hl
    have hlinksnow : ∀ m t, now.node? m ≠ some (.link t) := fun m t hm => hlinks m t (hmade.link hm)
    by_cases hfree : ∀ kind : Kind,
        now.locate (kind.file setup.outputDirectory name) ≠ .ok (l, .file content)
    · -- none of the three paths leads to the file
      obtain ⟨hwritten, hlater⟩ := SyntaxFiles.node?_writeKinds files Kind.all hgmade hlnow hfree
      exact Or.inl (hread (hmade.keeps.trans hwritten.toKeeps) hlater)
    · -- one of the three paths leads to the file, and it still does when all is written
      simp only [not_forall, not_not] at hfree
      obtain ⟨kind, hkind⟩ := hfree
      have hwritten : FilesWritten now
          (files.writeKinds setup.outputDirectory name Kind.all now).2 :=
        SyntaxFiles.filesWritten_writeKinds files Kind.all hgmade
      obtain ⟨c, _, hlater⟩ := locate_of_keeps hwritten.toKeeps hkind
      exact Or.inr ⟨kind, head?_of_locate hlinksnow hslash kind hkind, canonical_of_locate hlater⟩

/-- So does a compilation, whatever comes of it. -/
theorem read_compile (hg : fs.Grounded) (hlinks : ∀ l t, fs.node? l ≠ some (.link t))
    (hp : fs.locate p = .ok (l, .file content)) :
    (compile fs setup fresh path).2.read p = .ok content ∨
      IsDestination (compile fs setup fresh path).2 setup
        (Scheme.nameOf (schemePath fs path)) l := by
  rcases compile_cases fs setup fresh path with hsame | ⟨scheme, files, hload, hfiles⟩
  · rw [hsame]
    exact Or.inl (read_of_locate hp)
  · rw [(compile_of_filesOf hload hfiles).1, ← Scheme.name_of_load hload]
    refine read_store_or hg hlinks ?_ hp
    rw [Scheme.name_of_load hload]
    exact Scheme.slash_nameOf _

/--
**Compiling keeps its sources.** Where there are no links, the scheme file and the files of all
documents that were loaded with it have the same bytes afterwards, whatever comes of the
compilation. The one exception is a source that stands where a syntax file of the scheme is written,
under the very name of that file.
-/
theorem compile_keeps_sources (setup : Setup) (fresh : Fresh) (path : Path) (hg : fs.Grounded)
    (hlinks : ∀ l t, fs.node? l ≠ some (.link t)) :
    ∀ source ∈ sources fs setup path, ∀ content, fs.read source = .ok content →
      (compile fs setup fresh path).2.read source = .ok content ∨
        ∃ l, fs.canonical source = .ok l ∧ IsDestination (compile fs setup fresh path).2 setup
          (Scheme.nameOf (schemePath fs path)) l := by
  intro source _ content hread
  obtain ⟨l, hl⟩ := read_ok_iff.mp hread
  rcases read_compile hg hlinks hl with hkept | hdestination
  · exact Or.inl hkept
  · exact Or.inr ⟨l, canonical_of_locate hl, hdestination⟩

theorem includedFiles_smallScheme :
    includedFiles twoSchemes atOut smallScheme = [⟨"/work/more.json"⟩] := by
  have hloads : (smallScheme.source.withIncludes
      (twoSchemes.loader [smallScheme.directory, atOut.includeDirectory])
      smallScheme.name).loads = ["more"] := loads_smallScheme
  rw [includedFiles, hloads]
  rfl

/-- A document that a scheme includes is kept. -/
theorem compile_keeps_sources_of_included_keyword :
    (compile twoSchemes atOut (Fresh.ofSeed []) ⟨"/work/small.json"⟩).2.read ⟨"/work/more.json"⟩
      = .ok moreText.toUTF8 := by
  have hsource : (⟨"/work/more.json"⟩ : Path) ∈ sources twoSchemes atOut ⟨"/work/small.json"⟩ := by
    rw [sources, load_smallScheme]
    dsimp only
    rw [includedFiles_smallScheme]
    exact List.mem_cons_of_mem _ List.mem_cons_self
  have hread : twoSchemes.read ⟨"/work/more.json"⟩ = .ok moreText.toUTF8 := by rfl
  rcases compile_keeps_sources atOut (Fresh.ofSeed []) ⟨"/work/small.json"⟩ grounded_twoSchemes
    noLinks_twoSchemes _ hsource _ hread with hkept | ⟨l, hl, kind, hhead, _⟩
  · exact hkept
  · -- it has not the name of one of the three files
    have hplace : twoSchemes.canonical ⟨"/work/more.json"⟩ = .ok ["more.json", "work"] := by rfl
    obtain rfl := Except.ok.inj (hplace.symm.trans hl)
    revert hhead
    cases kind <;> decide

/-! ## A source that is replaced -/

/-- Every document ends its file with a line break. -/
theorem getLast?_of_fileContent {doc : Json} {text : String}
    (h : fileContent doc = text.toUTF8) : text.toList.getLast? = some '\n' := by
  have htext : doc.pretty ++ "\n" = text := String.toByteArray_inj.mp h
  rw [← htext, String.toList_append]
  simp

/-- An empty scheme under the name of its own grammar. -/
def ownGrammar : FileSystem where
  nodes := [(["out"], .directory), (["mine.tmLanguage.json", "out"], .file "\x7b\x7d".toUTF8)]

/-- A scheme in place of its grammar is replaced by it. -/
theorem compile_replaces_scheme :
    ownGrammar.Grounded ∧ (∀ l t, ownGrammar.node? l ≠ some (.link t)) ∧
      ∃ source ∈ sources ownGrammar atOut ⟨"/out/mine.tmLanguage.json"⟩,
        ∃ content, ownGrammar.read source = .ok content ∧
          (compile ownGrammar atOut (Fresh.ofSeed []) ⟨"/out/mine.tmLanguage.json"⟩).2.read source
            ≠ .ok content := by
  have hg : ownGrammar.Grounded := by
    refine grounded_of_nodes rfl ?_
    simp only [ownGrammar, List.forall_mem_cons]
    exact ⟨rfl, rfl, fun e he => by cases he⟩
  have hlinks : ∀ l t, ownGrammar.node? l ≠ some (.link t) := by
    intro l t h
    have hmem := mem_of_node? h (by simp)
    simp [ownGrammar] at hmem
  have hread : ownGrammar.read (schemePath ownGrammar ⟨"/out/mine.tmLanguage.json"⟩)
      = .ok "\x7b\x7d".toUTF8 := by rfl
  have hlocate : ownGrammar.locate (schemePath ownGrammar ⟨"/out/mine.tmLanguage.json"⟩)
      = .ok (["mine.tmLanguage.json", "out"], .file "\x7b\x7d".toUTF8) := by rfl
  refine ⟨hg, hlinks, _, List.mem_cons_self, _, hread, ?_⟩
  obtain ⟨fs', hcompile, hstored, hwritten⟩ :=
    compile_ok_of_write atOut (Fresh.ofSeed []) hg (by rfl) (load_empty hread) rfl
      (fun kind => by cases kind <;> exact ⟨_, rfl⟩)
  rw [hcompile]
  have hgrammar : ownGrammar.place? (Kind.grammar.file atOut.outputDirectory "mine")
      = some (["mine.tmLanguage.json", "out"] : Location) := by rfl
  -- a document stands in place of the grammar now, and the path of the scheme leads to it
  have hkind : Kind.grammar ∈ Kind.all := List.mem_cons_self
  obtain ⟨l, doc, hplace, hnode⟩ := SyntaxFiles.exists_document_of_writeKinds hstored hkind
  obtain rfl := Option.some.inj (hgrammar.symm.trans hplace)
  obtain ⟨c, hc, hlater⟩ := locate_of_keeps hwritten.toKeeps hlocate
  cases hc.symm.trans hnode
  rw [read_of_locate hlater]
  intro hsame
  have hlast := getLast?_of_fileContent (Except.ok.inj hsame)
  exact absurd hlast (by decide)

end Highlight.Compilation
