import Highlight.Proofs.FileSystem.Leads
import Highlight.Proofs.Success

/-!
# What reading and writing have to do with nodes

Each operation is told by the node it finds or leaves, so that nothing else has to open it. A file
that is written is one that its path led to, or a new one (`write_cases`), and nothing else changes.

A file system is grounded if its nodes stand in directories. Then a path with a slash at the end
leads to no file, so that the file a path is written to is the one that is read under it.
-/

namespace Highlight.FileSystem

variable {fs fs' : FileSystem} {p : Path} {l : Location}

/-! ## Reading -/

theorem locate_file_iff {c : ByteArray} : fs.locate p = .ok (l, .file c) ↔
    fs.spot ⟨true, false⟩ p = .ok (.taken l false) ∧ fs.node? l = some (.file c) := by
  rw [locate]
  constructor
  · intro h
    split at h
    · cases h
    · cases h
    · next l' slash hs =>
      -- something stands where the path leads
      split at h
      · cases h
      · next c' hn =>
        cases slash with
        | true => cases h
        | false => cases h; exact ⟨hs, hn⟩
      · next n hfile hn =>
        -- it is no file, so nothing of the kind was told
        cases h
        exact absurd rfl (hfile c)
  · rintro ⟨hs, hn⟩
    simp [hs, hn]

theorem locate_directory_iff : fs.locate p = .ok (l, .directory) ↔
    (∃ s, fs.spot ⟨true, false⟩ p = .ok (.taken l s)) ∧ fs.node? l = some .directory := by
  rw [locate]
  constructor
  · intro h
    split at h
    · cases h
    · cases h
    · next l' slash hs =>
      -- something stands where the path leads, and it must be the directory
      split at h
      · cases h
      · cases slash <;> cases h
      · next hn =>
        cases h
        exact ⟨⟨slash, hs⟩, hn⟩
  · rintro ⟨⟨s, hs⟩, hn⟩
    simp [hs, hn]

theorem isFile_iff : fs.isFile p = true ↔ ∃ l c, fs.locate p = .ok (l, .file c) := by
  rw [isFile]
  split
  · next l c h => exact iff_of_true rfl ⟨l, c, h⟩
  · next h => exact iff_of_false (by simp) fun ⟨l, c, hl⟩ => h l c hl

theorem isDirectory_iff : fs.isDirectory p = true ↔ ∃ l, fs.locate p = .ok (l, .directory) := by
  rw [isDirectory]
  split
  · next l h => exact iff_of_true rfl ⟨l, h⟩
  · next h => exact iff_of_false (by simp) fun ⟨l, hl⟩ => h l hl

theorem exists_spot_of_locate {n : Node} (h : fs.locate p = .ok (l, n)) :
    ∃ s, fs.spot ⟨true, false⟩ p = .ok (.taken l s) := by
  rw [locate] at h
  split at h
  · cases h
  · cases h
  · next l' s hs =>
    refine ⟨s, ?_⟩
    split at h
    · cases h
    · split at h <;> cases h
      exact hs
    · cases h
      exact hs

/-- What is located is where the path leads. -/
theorem leadsTo_of_locate {n : Node} (h : fs.locate p = .ok (l, n)) : fs.LeadsTo p l := by
  obtain ⟨s, hs⟩ := exists_spot_of_locate h
  exact (spot_ok_iff.mp hs).2.leads (Or.inl rfl)

theorem canonical_of_locate {n : Node} (h : fs.locate p = .ok (l, n)) :
    fs.canonical p = .ok l := by
  rw [canonical, h]
  rfl

theorem leadsTo_of_canonical (h : fs.canonical p = .ok l) : fs.LeadsTo p l := by
  obtain ⟨⟨l', n⟩, hlocate, rfl⟩ := exists_of_map_ok h
  exact leadsTo_of_locate hlocate

theorem read_of_locate {c : ByteArray} (h : fs.locate p = .ok (l, .file c)) :
    fs.read p = .ok c := by
  rw [read, h]

theorem read_ok_iff {c : ByteArray} :
    fs.read p = .ok c ↔ ∃ l, fs.locate p = .ok (l, .file c) := by
  constructor
  · intro h
    rw [read] at h
    split at h
    · cases h
    · next l _ hl =>
      -- only a file is read
      cases h
      exact ⟨l, hl⟩
    · cases h
  · rintro ⟨l, hl⟩
    exact read_of_locate hl

theorem readText_of_read {text : String} (h : fs.read p = .ok text.toUTF8) :
    fs.readText p = .ok text := by
  have hvalid : String.fromUTF8? text.toUTF8 = some text := by
    rw [String.fromUTF8?, String.toUTF8_eq_toByteArray, dif_pos text.isValidUTF8]
    rfl
  rw [readText, h]
  dsimp only
  rw [hvalid]

/-- A file is found where it was as long as nodes are kept. -/
theorem locate_of_keeps {c : ByteArray} (h : Keeps fs fs') (hp : fs.locate p = .ok (l, .file c)) :
    ∃ c', fs'.node? l = some (.file c') ∧ fs'.locate p = .ok (l, .file c') := by
  obtain ⟨hs, hn⟩ := locate_file_iff.mp hp
  obtain ⟨c', hn'⟩ := h.file hn
  exact ⟨c', hn', locate_file_iff.mpr ⟨spot_taken_of_keeps h hs, hn'⟩⟩

/-- So is a directory. -/
theorem locate_directory_of_keeps (h : Keeps fs fs') (hp : fs.locate p = .ok (l, .directory)) :
    fs'.locate p = .ok (l, .directory) := by
  obtain ⟨⟨s, hs⟩, hn⟩ := locate_directory_iff.mp hp
  exact locate_directory_iff.mpr ⟨⟨s, spot_taken_of_keeps h hs⟩, h.directory hn⟩

/-- A path that leads to where nothing stood led nowhere. -/
theorem locate_ne_of_none {n : Node} (h : Keeps fs fs') (hl : fs.node? l = none)
    (hp : fs'.locate p = .ok (l, n)) (found : Location × Node) : fs.locate p ≠ .ok found := by
  intro hold
  obtain ⟨m, n'⟩ := found
  obtain ⟨s, hs⟩ := exists_spot_of_locate hold
  obtain ⟨s', hs'⟩ := exists_spot_of_locate hp
  cases (spot_taken_of_keeps h hs).symm.trans hs'
  rw [node?_of_locate hold] at hl
  cases hl

/-- Writing files makes no path lead to an old file that it did not lead to before. -/
theorem locate_of_filesWritten {c c' : ByteArray} (h : FilesWritten fs fs')
    (hl : fs.node? l = some (.file c)) (hp : fs'.locate p = .ok (l, .file c')) :
    fs.locate p = .ok (l, .file c) := by
  obtain ⟨hs, _⟩ := locate_file_iff.mp hp
  exact locate_file_iff.mpr ⟨spot_taken_of_filesWritten h (by simp [hl]) hs, hl⟩

/-! ## Writing -/

/-- What is written: a file that is found under the path, or one where nothing stood. -/
theorem write_cases {content : ByteArray} (hg : Grounded fs) (h : fs.write p content = .ok fs') :
    ∃ l, fs.LeadsTo p l ∧ fs' = fs.set l (.file content) ∧
      (fs.node? l = none ∨ ∃ c, fs.locate p = .ok (l, .file c)) := by
  rw [write] at h
  split at h
  · cases h
  · next d name s hs =>
    -- a free place: the file is made there
    cases h
    have hf := (spot_ok_iff.mp hs).2
    exact ⟨name :: d, hf.leads (Or.inl rfl), rfl, Or.inl hf.node?_free⟩
  · next l s hs =>
    split at h
    · next c hn =>
      -- another file: it is replaced
      cases h
      have hf := (spot_ok_iff.mp hs).2
      refine ⟨l, hf.leads (Or.inl rfl), rfl, Or.inr ⟨c, ?_⟩⟩
      cases s with
      | false => exact locate_file_iff.mpr ⟨spot_of_makesFile hs, hn⟩
      | true =>
        -- a slash behind it would have asked for a directory
        have hd := hf.directory_of_slash hg rfl (node?_origin hg.cwd p)
        simp [hn] at hd
    · cases h

theorem filesWritten_write {content : ByteArray} (hg : Grounded fs)
    (h : fs.write p content = .ok fs') : FilesWritten fs fs' := by
  obtain ⟨l, _, rfl, hn | ⟨c, hl⟩⟩ := write_cases hg h
  · exact filesWritten_set (Or.inl hn)
  · exact filesWritten_set (Or.inr ⟨c, (locate_file_iff.mp hl).2⟩)

theorem grounded_write {content : ByteArray} (hg : Grounded fs)
    (h : fs.write p content = .ok fs') : Grounded fs' := by
  obtain ⟨l, hleads, rfl, hl⟩ := write_cases hg h
  have hparent := hg.parent_of_leads hleads (node?_origin hg.cwd p)
  rcases hl with hn | ⟨c, hl⟩
  · exact hg.set hparent (ne_root_of_none hn) (Or.inr (by simp [hn]))
  · have hn := (locate_file_iff.mp hl).2
    exact hg.set hparent (ne_root_of_file hn) (Or.inr (by simp [hn]))

/-- A file that the path does not lead to keeps its bytes. -/
theorem node?_write {content c : ByteArray} (hg : Grounded fs) (h : fs.write p content = .ok fs')
    (hl : fs.node? l = some (.file c)) (hne : fs.locate p ≠ .ok (l, .file c)) :
    fs'.node? l = some (.file c) := by
  obtain ⟨m, _, rfl, hn | ⟨c', hm⟩⟩ := write_cases hg h
  · rw [node?_set_ne (ne_root_of_none hn) _ (by rintro rfl; simp [hl] at hn), hl]
  · have hn := (locate_file_iff.mp hm).2
    rw [node?_set_ne (ne_root_of_file hn) _ ?_, hl]
    rintro rfl
    rw [hl] at hn
    cases hn
    exact hne hm

end Highlight.FileSystem
