import Highlight.Proofs.FileSystem.Directories
import Highlight.SyntaxFiles.Store

/-!
# What storing syntax files does

The three documents are written to three paths, one after another (`store_ok`), and where one cannot
be written the error names its path or the directory (`store_error`). An old file that none of the
three paths leads to is not touched either way (`read_store`). Only the paths as they lead before
anything is written have to be looked at: new files do not make other paths lead anywhere else.
-/

namespace Highlight.SyntaxFiles

open FileSystem

variable {files : SyntaxFiles} {directory : Path} {name : String} {fs fs' : FileSystem}
  {l : Location} {c : ByteArray}

/-! ## File names -/

namespace Kind

theorem mem_all (kind : Kind) : kind ∈ all := by
  cases kind <;> decide

/-- The bytes of the ending of a kind. -/
def endingBytes (kind : Kind) : List UInt8 := (RawText.ofText kind.ending).bytes

theorem slash_endingBytes (kind : Kind) : Path.slash ∉ kind.endingBytes := by
  cases kind <;> decide

theorem length_endingBytes (kind : Kind) : 2 < kind.endingBytes.length := by
  cases kind <;> decide

/-- Every file name has the ending of its kind behind some part of the name. -/
theorem exists_fileName_eq (kind : Kind) (name : String) :
    ∃ stem, kind.fileName name = stem ++ kind.ending ∧ stem.toList <+: name.toList := by
  rw [fileName]
  split
  · next h =>
    obtain ⟨t, ht⟩ := List.isSuffixOf_iff_suffix.mp h
    refine ⟨String.ofList t, ?_, by rw [String.toList_ofList, ← ht]; exact List.prefix_append _ _⟩
    rw [← String.toList_inj, String.toList_append, String.toList_ofList, ht]
  · exact ⟨name, rfl, List.prefix_refl _⟩

theorem endingBytes_suffix_fileName (kind : Kind) (name : String) :
    kind.endingBytes <:+ (RawText.ofText (kind.fileName name)).bytes := by
  obtain ⟨stem, hstem, _⟩ := kind.exists_fileName_eq name
  rw [hstem, RawText.ofText_append]
  exact List.suffix_append _ _

theorem isName_fileName (kind : Kind) (h : '/' ∉ name.toList) :
    Path.IsName (kind.fileName name) := by
  refine Path.isName_of_suffix ?_ (kind.endingBytes_suffix_fileName name) kind.length_endingBytes
  obtain ⟨stem, hstem, hbegin⟩ := kind.exists_fileName_eq name
  rw [hstem, RawText.ofText_append, RawText.bytes_append, List.mem_append, not_or]
  exact ⟨fun hmem => h (hbegin.subset (Path.slash_mem_ofText_iff.mp hmem)), kind.slash_endingBytes⟩

theorem endingBytes_suffix_file (kind : Kind) (directory : Path) (name : String) :
    kind.endingBytes <:+ (kind.file directory name).bytes :=
  (kind.endingBytes_suffix_fileName name).trans
    (Path.suffix_join directory ⟨RawText.ofText (kind.fileName name)⟩)

/-- No bytes have the endings of two kinds. -/
theorem eq_of_endingBytes_suffix {kind kind' : Kind} {t : List UInt8} (h : kind.endingBytes <:+ t)
    (h' : kind'.endingBytes <:+ t) : kind = kind' := by
  have hor := List.suffix_or_suffix_of_suffix h h'
  revert hor
  cases kind <;> cases kind' <;> decide

end Kind

/-! ## What is written, and what fails -/

theorem writeKinds_cons_of_error {kind : Kind} {kinds : List Kind} {cause : FileError}
    (h : fs.write (kind.file directory name) (fileContent (files.get kind)) = .error cause) :
    files.writeKinds directory name (kind :: kinds) fs
      = (.error (.file (kind.file directory name) cause), fs) := by
  -- by the equation of the whole, since the one for this case would follow all the links of a path
  rw [writeKinds.eq_def]
  dsimp only
  rw [h]

theorem writeKinds_cons_of_ok {kind : Kind} {kinds : List Kind} {next : FileSystem}
    (h : fs.write (kind.file directory name) (fileContent (files.get kind)) = .ok next) :
    files.writeKinds directory name (kind :: kinds) fs
      = ((files.writeKinds directory name kinds next).1.map (kind.file directory name :: ·),
        (files.writeKinds directory name kinds next).2) := by
  rw [writeKinds.eq_def]
  dsimp only
  rw [h]
  dsimp only
  split <;> next hrest => rw [hrest]; rfl

/-- How writing several documents goes on after the first of them. -/
theorem writeKinds_cons_cases (files : SyntaxFiles) (directory : Path) (name : String)
    (kind : Kind) (kinds : List Kind) (fs : FileSystem) :
    (∃ cause, fs.write (kind.file directory name) (fileContent (files.get kind)) = .error cause ∧
      files.writeKinds directory name (kind :: kinds) fs
        = (.error (.file (kind.file directory name) cause), fs)) ∨
    ∃ next, fs.write (kind.file directory name) (fileContent (files.get kind)) = .ok next ∧
      files.writeKinds directory name (kind :: kinds) fs
        = ((files.writeKinds directory name kinds next).1.map (kind.file directory name :: ·),
          (files.writeKinds directory name kinds next).2) := by
  cases hwrite : fs.write (kind.file directory name) (fileContent (files.get kind)) with
  | error cause => exact Or.inl ⟨cause, rfl, writeKinds_cons_of_error hwrite⟩
  | ok next => exact Or.inr ⟨next, rfl, writeKinds_cons_of_ok hwrite⟩

theorem writeKinds_cons_ok {kind : Kind} {kinds : List Kind} {written : List Path}
    (h : files.writeKinds directory name (kind :: kinds) fs = (.ok written, fs')) :
    ∃ next paths, fs.write (kind.file directory name) (fileContent (files.get kind)) = .ok next ∧
      files.writeKinds directory name kinds next = (.ok paths, fs') ∧
      written = kind.file directory name :: paths := by
  rcases writeKinds_cons_cases files directory name kind kinds fs with
    ⟨cause, _, heq⟩ | ⟨next, hwrite, heq⟩
  · rw [heq] at h
    cases h
  · rw [heq] at h
    obtain ⟨hpaths, hrest⟩ := Prod.mk.inj h
    obtain ⟨paths, hok, rfl⟩ := exists_of_map_ok hpaths
    exact ⟨next, paths, hwrite, Prod.ext hok hrest, rfl⟩

/-- The steps of storing that succeeds, and the files it returns. -/
theorem store_ok {written : List Path}
    (h : files.store fs directory name = (.ok written, fs')) :
    written = Kind.all.map (·.file directory name) ∧ ∃ fs₁ fs₂ fs₃,
      fs.makeDirectories directory = (.ok (), fs₁) ∧
      fs₁.write (Kind.grammar.file directory name) (fileContent files.grammar) = .ok fs₂ ∧
      fs₂.write (Kind.theme.file directory name) (fileContent files.theme) = .ok fs₃ ∧
      fs₃.write (Kind.settings.file directory name) (fileContent files.settings) = .ok fs' := by
  rw [store] at h
  split at h
  · cases h
  · next fs₁ hmade =>
    obtain ⟨fs₂, _, hgrammar, hrest, rfl⟩ := writeKinds_cons_ok h
    obtain ⟨fs₃, _, htheme, hrest', rfl⟩ := writeKinds_cons_ok hrest
    obtain ⟨fs₄, _, hsettings, hnone, rfl⟩ := writeKinds_cons_ok hrest'
    cases hnone
    exact ⟨rfl, fs₁, fs₂, fs₃, hmade, hgrammar, htheme, hsettings⟩

theorem writeKinds_error {kinds : List Kind} {e : Error}
    (h : (files.writeKinds directory name kinds fs).1 = .error e) :
    ∃ kind ∈ kinds, ∃ cause, e = .file (kind.file directory name) cause := by
  induction kinds generalizing fs with
  | nil => cases h
  | cons kind kinds ih =>
    rcases writeKinds_cons_cases files directory name kind kinds fs with
      ⟨cause, _, heq⟩ | ⟨next, _, heq⟩
    · -- this file cannot be written
      rw [heq] at h
      cases h
      exact ⟨kind, List.mem_cons_self, cause, rfl⟩
    · -- it can, and the failure is a later one
      rw [heq] at h
      cases hrest : (files.writeKinds directory name kinds next).1 with
      | ok paths => rw [hrest] at h; cases h
      | error e' =>
        rw [hrest] at h
        cases h
        obtain ⟨kind', hmem, herror⟩ := ih hrest
        exact ⟨kind', List.mem_cons_of_mem _ hmem, herror⟩

/-- Whatever fails is about the directory or one of the three files. -/
theorem store_error {e : Error} (h : files.store fs directory name = (.error e, fs')) :
    ∃ p cause, e = .file p cause ∧
      (p = directory ∨ p ∈ Kind.all.map (·.file directory name)) := by
  rw [store] at h
  split at h
  · next cause _ _ => cases h; exact ⟨directory, cause, rfl, Or.inl rfl⟩
  · obtain ⟨kind, hmem, cause, rfl⟩ := writeKinds_error (congrArg Prod.fst h)
    exact ⟨_, cause, rfl, Or.inr (List.mem_map_of_mem hmem)⟩

/-! ## What is left alone -/

/-- What every write preserves holds after all of them, also where one fails. -/
theorem writeKinds_induction {P : FileSystem → Prop} (files : SyntaxFiles) (kinds : List Kind)
    (hstep : ∀ fs fs' kind content, P fs →
      fs.write (Kind.file kind directory name) content = .ok fs' → P fs')
    (h : P fs) : P (files.writeKinds directory name kinds fs).2 := by
  induction kinds generalizing fs with
  | nil => exact h
  | cons kind kinds ih =>
    rcases writeKinds_cons_cases files directory name kind kinds fs with
      ⟨cause, _, heq⟩ | ⟨next, hwrite, heq⟩
    · rwa [heq]
    · rw [heq]
      exact ih (hstep _ _ _ _ h hwrite)

theorem grounded_writeKinds (files : SyntaxFiles) (kinds : List Kind) (hg : Grounded fs) :
    Grounded (files.writeKinds directory name kinds fs).2 :=
  writeKinds_induction files kinds (fun _ _ _ _ hnow hwrite => grounded_write hnow hwrite) hg

theorem filesWritten_writeKinds (files : SyntaxFiles) (kinds : List Kind) (hg : Grounded fs) :
    FilesWritten fs (files.writeKinds directory name kinds fs).2 := by
  have hstep : ∀ now next kind content, Grounded now ∧ FilesWritten fs now →
      now.write (Kind.file kind directory name) content = .ok next →
        Grounded next ∧ FilesWritten fs next := fun now next kind content h hwrite =>
    ⟨grounded_write h.1 hwrite, h.2.trans (filesWritten_write h.1 hwrite)⟩
  exact (writeKinds_induction files kinds hstep ⟨hg, .refl fs⟩).2

/-- A file that no path leads to at the start is not written, whatever was written before. -/
theorem node?_writeKinds (files : SyntaxFiles) (kinds : List Kind) (hg : Grounded fs)
    (hl : fs.node? l = some (.file c))
    (hfree : ∀ kind, fs.locate (Kind.file kind directory name) ≠ .ok (l, .file c)) :
    FilesWritten fs (files.writeKinds directory name kinds fs).2 ∧
      (files.writeKinds directory name kinds fs).2.node? l = some (.file c) := by
  let Inv (now : FileSystem) : Prop :=
    Grounded now ∧ FilesWritten fs now ∧ now.node? l = some (.file c)
  have hstep : ∀ now next kind content, Inv now →
      now.write (Kind.file kind directory name) content = .ok next → Inv next := by
    intro now next kind content ⟨hgnow, hwritten, hnow⟩ hwrite
    have hother : now.locate (Kind.file kind directory name) ≠ .ok (l, .file c) :=
      fun hfile => hfree kind (locate_of_filesWritten hwritten hl hfile)
    exact ⟨grounded_write hgnow hwrite, hwritten.trans (filesWritten_write hgnow hwrite),
      node?_write hgnow hwrite hnow hother⟩
  exact (writeKinds_induction files kinds hstep ⟨hg, .refl fs, hl⟩).2

/--
**Storing touches no other file.** The directory may be made on the way, but then its path must not
lead up.
-/
theorem read_store {p : Path} (hg : Grounded fs)
    (hdir : fs.isDirectory directory = true ∨ .up ∉ directory.steps) (hname : '/' ∉ name.toList)
    (hp : fs.locate p = .ok (l, .file c))
    (hfree : ∀ kind, fs.locate (Kind.file kind directory name) ≠ .ok (l, .file c)) :
    (files.store fs directory name).2.read p = .ok c := by
  have hl : fs.node? l = some (.file c) := (locate_file_iff.mp hp).2
  have hmade := directoriesMade_makeDirectories fs directory
  -- a path that still leads to the node reads what it holds
  have hfile : ∀ {fs'}, Keeps fs fs' → fs'.node? l = some (.file c) → fs'.read p = .ok c := by
    intro fs' hkeeps hl'
    obtain ⟨c', hn, hp'⟩ := locate_of_keeps hkeeps hp
    rw [hl'] at hn
    cases hn
    exact read_of_locate hp'
  rw [store]
  split
  · next heq =>
    -- not all directories could be made
    rw [heq] at hmade
    exact hfile hmade.keeps (hmade.node l _ hl)
  · next fs₁ heq =>
    -- the directories are there, and no document lands at the file
    have hg₁ := grounded_makeDirectories hg directory
    rw [heq] at hmade hg₁
    have hfree₁ : ∀ kind, fs₁.locate (Kind.file kind directory name) ≠ .ok (l, .file c) :=
      fun kind h => hfree kind
        (locate_of_makeDirectories hg hdir (kind.isName_fileName hname) hl heq h)
    obtain ⟨hwritten, hl'⟩ := node?_writeKinds files Kind.all hg₁ (hmade.node l _ hl) hfree₁
    exact hfile (hmade.keeps.trans hwritten.toKeeps) hl'

end Highlight.SyntaxFiles
