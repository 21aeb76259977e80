import Highlight.Housekeeping
import Highlight.Proofs.FileSystem.Directories

/-!
# Beginning a scheme only adds to a file system

A scheme is begun in three steps: the directories above its path are made, then a new file, and the
template is written into it. None of them replaces anything. The first adds directories only, each
at a path above that of the scheme which led nowhere before (`madeAbove_makeParent`), and the second
adds one file, where the path of the scheme now leads (`made_of_createNew`). Directories that are
made may well let the path lead to something that was there; then the second step fails. If it is
the third one that fails, the new file stays, with as much of the template as was written.
-/

namespace Highlight

namespace FileSystem

variable {fs fs' fs'' : FileSystem} {path p : Path} {l : Location}

/-- Something stands at a path, be it a link that leads nowhere. -/
def Stands (fs : FileSystem) (p : Path) : Prop :=
  ∃ l slash, fs.spot ⟨false, false⟩ p = .ok (.taken l slash)

/-- There is a directory at the location that was missing: a path above `path` leads to it. -/
structure MissingAbove (fs fs' : FileSystem) (path : Path) (l : Location) : Prop where
  node : fs'.node? l = some .directory
  above : ∃ q, q.IsAbove path ∧ (∀ found, fs.locate q ≠ .ok found) ∧
    fs'.locate q = .ok (l, .directory)

/-- `fs'` is `fs` with missing directories above a path made. -/
structure MadeAbove (fs fs' : FileSystem) (path : Path) : Prop extends
    DirectoriesMade fs fs' where
  missing : ∀ l n, fs.node? l = none → fs'.node? l = some n → MissingAbove fs fs' path l

/-- All that is new are directories that were missing above a path. -/
def AddsDirectories (fs fs' : FileSystem) (path : Path) : Prop :=
  ∀ l n, fs.node? l = none → fs'.node? l = some n → MissingAbove fs fs' path l

/-- One file is new, and `path` leads to it; so are directories that were missing above `path`. -/
def AddsFile (fs fs' : FileSystem) (path : Path) (content : ByteArray) : Prop :=
  ∃ l, fs.node? l = none ∧ fs'.locate path = .ok (l, .file content) ∧
    ∀ m n, m ≠ l → fs.node? m = none → fs'.node? m = some n → MissingAbove fs fs' path m

/-! ## Making directories -/

theorem MadeAbove.refl (fs : FileSystem) (path : Path) : MadeAbove fs fs path :=
  ⟨.refl fs, fun l n hl hn => by rw [hl] at hn; cases hn⟩

/-- A directory that was missing is still there when more is added. -/
theorem MissingAbove.of_keeps (h : MissingAbove fs fs' path l) (hk : Keeps fs' fs'') :
    MissingAbove fs fs'' path l := by
  obtain ⟨q, habove, hmissing, hq⟩ := h.above
  exact ⟨hk.directory h.node, q, habove, hmissing, locate_directory_of_keeps hk hq⟩

theorem MadeAbove.makeDirectory (h : MadeAbove fs fs' path) (hp : p.IsAbove path)
    (hmade : fs'.makeDirectory p = .ok fs'') : MadeAbove fs fs'' path := by
  -- the directory was made at a place where nothing stood
  obtain ⟨d, hd, rfl, hlocate⟩ := made_of_makeDirectory hmade
  have hlater := directoriesMade_set hd
  have hall := h.toDirectoriesMade.trans hlater
  refine ⟨hall, fun l n hl hn => ?_⟩
  cases hl' : fs'.node? l with
  | some n' => exact (h.missing l n' hl hl').of_keeps hlater.keeps
  | none =>
    -- nothing else is new than what was made last
    obtain rfl : d = l := by
      by_contra hne
      rw [node?_set_ne (ne_root_of_none hd) _ hne, hl'] at hn
      cases hn
    exact ⟨(node?_set_self (ne_root_of_none hd) _), p, hp,
      locate_ne_of_none hall.keeps hl hlocate, hlocate⟩

theorem madeAbove_makeDirectories {parent : Path} (hparent : path.parent? = some parent)
    (fs : FileSystem) : MadeAbove fs (fs.makeDirectories parent).2 path := by
  refine makeChain_induction (P := (MadeAbove fs · path)) _ ?_ (.refl fs path)
  intro _ _ p hp h hmade
  refine h.makeDirectory ?_ hmade
  rcases Path.isAbove_of_mem_ancestors hp with rfl | habove
  · exact .parent hparent
  · exact .beyond hparent habove

/-! ## Making a new file -/

/-- No slash may stand at the end of a path that a file is to be made at. -/
theorem Follows.no_slash_of_free {follows : Bool} {links : Nat} {steps : List Step}
    {slash s : Bool} {o d : Location} {name : RawText}
    (h : Follows fs ⟨follows, true⟩ links steps slash o (.free d name s)) : s = false := by
  generalize hspot : Spot.free d name s = spot at h
  induction h with
  | done => cases hspot
  | here _ ih => exact ih hspot
  | up _ ih => exact ih hspot
  | free ha _ =>
    cases hspot
    exact Bool.eq_false_iff.mpr fun hs => ha.2 ⟨rfl, rfl, hs⟩
  | file => cases hspot
  | directory _ _ _ ih => exact ih hspot
  | stop => cases hspot
  | link _ _ _ _ ih => exact ih hspot

/-- A file is made where nothing stood, and the path leads to it, whatever is written into it. -/
theorem made_of_createNew (h : fs.createNew p = .ok (l, fs')) :
    ¬Stands fs p ∧ fs.node? l = none ∧ fs' = fs.set l (.file .empty) ∧
      ∀ content, (fs.set l (.file content)).locate p = .ok (l, .file content) := by
  rw [createNew] at h
  split at h
  · cases h
  · next d name s hs =>
    cases h
    -- the walk to the free place ends in the new file
    obtain ⟨hfault, hf⟩ := spot_ok_iff.mp hs
    obtain rfl : s = false := hf.no_slash_of_free
    refine ⟨?_, hf.node?_free, rfl, fun content => ?_⟩
    · -- the place cannot be free and taken
      rintro ⟨l, slash, htaken⟩
      cases (spot_of_makesFile hs).symm.trans htaken
    · have hspot := spot_ok_iff.mpr ⟨hfault, hf.taken_of_free (n := .file content) (by simp)⟩
      exact locate_file_iff.mpr ⟨hspot, node?_set_self (List.cons_ne_nil name d) _⟩
  · cases h

/-- Filling a file that was just made is making it with what is written. -/
theorem fill_set_empty (fs : FileSystem) (l : Location) (content : ByteArray) (writing : Writing) :
    (fs.set l (.file .empty)).fill l content writing =
      (writing.outcome, fs.set l (.file (writing.written content))) := by
  rw [fill, set_set]

end FileSystem

namespace Housekeeping

open FileSystem

variable {fs : FileSystem} {path : Path}

theorem madeAbove_makeParent (fs : FileSystem) (path : Path) :
    MadeAbove fs (makeParent fs path).2 path := by
  rw [makeParent]
  split
  · next parent hparent => exact madeAbove_makeDirectories hparent fs
  · exact .refl fs path

/-- Either the directories alone are made, or a file as well, and how that was filled is told. -/
theorem begin_cases (fs : FileSystem) (path : Path) (writing : Writing) :
    (∃ e, begin fs path writing = (.error e, (makeParent fs path).2)) ∨
      ∃ l made, (makeParent fs path).2.createNew path = .ok (l, made) ∧
        begin fs path writing =
          (writing.outcome.map fun _ => "New scheme written to " ++ path.text ++ ".",
            (made.fill l template.toUTF8 writing).2) := by
  rw [begin]
  split
  · next e made heq =>
    -- the directories could not be made
    rw [heq]
    exact Or.inl ⟨e, rfl⟩
  · next made heq =>
    rw [heq]
    -- the directories are there, and the file may still be refused
    cases hcreate : made.createNew path with
    | error e => exact Or.inl ⟨e, rfl⟩
    | ok created =>
      refine Or.inr ⟨created.1, created.2, rfl, ?_⟩
      -- whether the writing breaks off decides the outcome, and the file is there
      cases writing with
      | whole => rfl
      | broken count e => rfl

/-- Directories are made, then a file: that adds them, and replaces nothing. -/
theorem addsFile_of_createNew {made created : FileSystem} {l : Location}
    (habove : MadeAbove fs made path) (hcreate : made.createNew path = .ok (l, created))
    (content : ByteArray) :
    (∀ m n, fs.node? m = some n → (made.set l (.file content)).node? m = some n) ∧
      AddsFile fs (made.set l (.file content)) path content := by
  obtain ⟨-, hl, -, hlocate⟩ := made_of_createNew hcreate
  have hkeeps : Keeps made (made.set l (.file content)) :=
    (filesWritten_set (Or.inl hl)).toKeeps
  constructor
  · intro m n hm
    exact node?_set_of_none hl _ (habove.node m n hm)
  · refine ⟨l, habove.none_of_none hl, hlocate content, fun m n hne hm hn => ?_⟩
    rw [node?_set_ne (ne_root_of_none hl) _ (Ne.symm hne)] at hn
    exact (habove.missing m n hm hn).of_keeps hkeeps

/--
**Beginning a scheme only adds.** Whatever comes of it, each file, directory and link that was there
is there afterwards, with the same bytes and the same target. If it succeeds, one new file holds the
template, and the path leads to it; all else that is new are directories that were missing above the
path. If it fails, nothing but such directories is new, unless the writing broke off: then the new
file is there too, with what was written of the template. Where something stands at the path, be it
a link that leads nowhere, it fails without a new file.
-/
theorem begin_only_adds (fs : FileSystem) (path : Path) (writing : Writing) :
    let outcome := (begin fs path writing).1
    let left := (begin fs path writing).2
    (∀ l n, fs.node? l = some n → left.node? l = some n) ∧
    (∀ status, outcome = .ok status → AddsFile fs left path template.toUTF8) ∧
    (∀ e, outcome = .error e → AddsDirectories fs left path ∨
      ∃ count, writing = .broken count e ∧
        AddsFile fs left path (template.toUTF8.extract 0 count)) ∧
    (fs.Stands path → (∃ e, outcome = .error e) ∧ AddsDirectories fs left path) := by
  intro outcome left
  have habove := madeAbove_makeParent fs path
  rcases begin_cases fs path writing with ⟨e, hbegin⟩ | ⟨l, made, hcreate, hbegin⟩
  · -- no file was made
    have houtcome : outcome = .error e := congrArg Prod.fst hbegin
    have hleft : left = (makeParent fs path).2 := congrArg Prod.snd hbegin
    rw [houtcome, hleft]
    refine ⟨habove.node, ?_, fun _ _ => Or.inl habove.missing, fun _ => ⟨⟨e, rfl⟩, habove.missing⟩⟩
    intro status hstatus
    cases hstatus
  · obtain ⟨hfree, -, hmade, -⟩ := made_of_createNew hcreate
    obtain ⟨hold, hnew⟩ := addsFile_of_createNew habove hcreate (writing.written template.toUTF8)
    have houtcome : outcome = writing.outcome.map _ := congrArg Prod.fst hbegin
    have hleft : left = (makeParent fs path).2.set l (.file (writing.written template.toUTF8)) := by
      have hsecond : left = (made.fill l template.toUTF8 writing).2 := congrArg Prod.snd hbegin
      rw [hsecond, hmade, fill_set_empty]
    rw [houtcome, hleft]
    refine ⟨hold, ?_, ?_, ?_⟩
    · -- a success is one of a whole writing
      intro status hstatus
      cases writing with
      | whole => exact hnew
      | broken count e => cases hstatus
    · -- a failure of the writing leaves the one file
      intro e he
      cases writing with
      | whole => cases he
      | broken count e' =>
        obtain rfl : e' = e := Except.error.inj he
        exact Or.inr ⟨count, rfl, hnew⟩
    · -- what stood there would still stand there once the directories are made
      rintro ⟨m, slash, hm⟩
      exact absurd ⟨m, slash, spot_taken_of_keeps habove.keeps hm⟩ hfree

/-- A directory with a file in it, and a link that leads nowhere. -/
def untidy : FileSystem where
  nodes := [(["home"], .directory), (["old.json", "home"], .file "\x7b\x7d".toUTF8),
    (["lost", "home"], .link ⟨"nowhere"⟩)]
  cwd := ["home"]

/-- Both paths need a directory, but from there the second one leads back to the old file. -/
theorem begin_only_adds_to_untidy :
    let added := begin untidy ⟨"new/mine.json"⟩ .whole
    let refused := begin untidy ⟨"new/../old.json"⟩ .whole
    added.1 = .ok "New scheme written to new/mine.json." ∧
    (∃ l, added.2.locate ⟨"new/mine.json"⟩ = .ok (l, .file template.toUTF8)) ∧
    untidy.MissingAbove added.2 ⟨"new/mine.json"⟩ ["new", "home"] ∧
    refused.1 = .error .alreadyExists ∧
    untidy.MissingAbove refused.2 ⟨"new/../old.json"⟩ ["new", "home"] ∧
    refused.2.node? ["old.json", "home"] = some (.file "\x7b\x7d".toUTF8) ∧
    untidy.Stands ⟨"lost"⟩ ∧ ∃ e, (begin untidy ⟨"lost"⟩ .whole).1 = .error e := by
  intro added refused
  -- a file in a new directory
  obtain ⟨_, hadded, _, _⟩ := begin_only_adds untidy ⟨"new/mine.json"⟩ .whole
  -- a file that is there, once a new directory leads back to it
  obtain ⟨hold, _, hrefused, _⟩ := begin_only_adds untidy ⟨"new/../old.json"⟩ .whole
  -- a link that leads to nothing
  obtain ⟨_, _, _, hlink⟩ := begin_only_adds untidy ⟨"lost"⟩ .whole
  have hok : added.1 = .ok "New scheme written to new/mine.json." := by rfl
  have herror : refused.1 = .error .alreadyExists := by rfl
  have hstands : untidy.Stands ⟨"lost"⟩ := ⟨["lost", "home"], false, by rfl⟩
  have hnone : untidy.node? ["new", "home"] = none := by rfl
  obtain ⟨l, _, hlocate, hothers⟩ := hadded _ hok
  have hplace : added.2.canonical ⟨"new/mine.json"⟩ = .ok ["mine.json", "new", "home"] := by rfl
  obtain rfl := Except.ok.inj (hplace.symm.trans (canonical_of_locate hlocate))
  have hdirectories : untidy.AddsDirectories refused.2 ⟨"new/../old.json"⟩ := by
    rcases hrefused _ herror with hdirectories | ⟨_, hbroken, _⟩
    · exact hdirectories
    · cases hbroken
  exact ⟨hok, ⟨_, hlocate⟩, hothers _ .directory (by decide) hnone (by rfl), herror,
    hdirectories _ .directory hnone (by rfl), hold _ _ (by rfl), hstands, (hlink hstands).1⟩

/-- On a full device the beginning fails, and still a file is new: an empty one. -/
theorem begin_leaves_empty_file :
    let broken := begin untidy ⟨"new/mine.json"⟩ (.broken 0 .storageFull)
    broken.1 = .error .storageFull ∧ untidy.node? ["mine.json", "new", "home"] = none ∧
      broken.2.node? ["mine.json", "new", "home"] = some (.file .empty) := by
  intro broken
  have hleft : broken.2.node? ["mine.json", "new", "home"] =
      some (.file (template.toUTF8.extract 0 0)) := by rfl
  rw [ByteArray.extract_same] at hleft
  exact ⟨by rfl, by rfl, hleft⟩

end Housekeeping

end Highlight
