import Highlight.Proofs.FileSystem.Entries
import Highlight.Proofs.SyntaxFiles.Store

/-!
# Where the syntax files of a name stand

The paths of a name lead to entries of one directory, whatever slashes the name has, unless it has
the ending of a kind (`exists_endsAt`); without slashes they are entries of the directory itself
(`endsAt_fileName`). Where the entries are files or missing, the name is `Placed`.

Of a placed name, storing fills all entries (`writeKinds_placed`), and discarding takes away all
that are there, or fails because a path cannot be used (`removeKinds_cases`).
-/

namespace Highlight.SyntaxFiles

open FileSystem

variable {directory : Path} {name : String} {steps : List Step} {entry : Kind → RawText}
  {fs fs' : FileSystem} {d l : Location}

/-! ## Entries of one directory -/

/-- No kind takes the name for a file name. -/
def Unending (name : String) : Prop := ∀ kind : Kind, ¬kind.ending.toList <:+ name.toList

namespace Kind

theorem fileName_of_unending (kind : Kind) (h : Unending name) :
    kind.fileName name = name ++ kind.ending := by
  rw [fileName, if_neg]
  rw [List.isSuffixOf_iff_suffix]
  exact h kind

theorem head?_ending (kind : Kind) : kind.ending.toList.head? = some '.' := by
  cases kind <;> rfl

theorem head?_endingBytes (kind : Kind) : kind.endingBytes.head? = some Path.dot := by
  cases kind <;> rfl

theorem ending_inj {kind kind' : Kind} {n n' : RawText}
    (h : n ++ kind.ending = n' ++ kind'.ending) : kind = kind' ∧ n = n' := by
  have hbytes : n.bytes ++ kind.endingBytes = n'.bytes ++ kind'.endingBytes :=
    congrArg RawText.bytes h
  obtain rfl : kind = kind' := eq_of_endingBytes_suffix (List.suffix_append _ _) ⟨_, hbytes.symm⟩
  exact ⟨rfl, congrArg RawText.mk (List.append_cancel_right hbytes)⟩

theorem endsInSlash_file (kind : Kind) (directory : Path) (name : String) :
    (kind.file directory name).endsInSlash = false := by
  obtain ⟨t, ht⟩ := kind.endingBytes_suffix_file directory name
  have hlast : ∀ kind : Kind, kind.endingBytes.getLast? ≠ none ∧
      kind.endingBytes.getLast? ≠ some Path.slash := by
    intro kind
    cases kind <;> decide
  obtain ⟨b, hb⟩ := Option.ne_none_iff_exists'.mp (hlast kind).1
  rw [Path.endsInSlash, ← ht, List.getLast?_append, hb, Option.some_or, ← hb]
  exact beq_false_of_ne (hlast kind).2

theorem isAbsolute_file (kind : Kind) (hslash : '/' ∉ name.toList) (directory : Path) :
    (kind.file directory name).isAbsolute = directory.isAbsolute :=
  Path.isAbsolute_join (kind.isName_fileName hslash) directory

/-- The entry of a kind's file has the ending of the kind. -/
theorem endingBytes_suffix_entry {kind : Kind} {entry : RawText}
    (h : EndsAt (kind.file directory name) steps entry) : kind.endingBytes <:+ entry.bytes := by
  obtain ⟨steps', entry', hsteps, hending⟩ := Path.exists_steps_of_suffix
    (kind.endingBytes_suffix_file directory name) kind.slash_endingBytes kind.length_endingBytes
  have hlast := List.append_inj_right' (h.steps.symm.trans hsteps) rfl
  cases hlast
  exact hending

end Kind

theorem unending_of_not_mem_dot (h : '.' ∉ name.toList) : Unending name := by
  intro kind hsuffix
  exact h (hsuffix.subset (List.mem_of_mem_head? kind.head?_ending))

/-- The files of a name without slashes are entries of the directory itself. -/
theorem endsAt_fileName (hslash : '/' ∉ name.toList) (kind : Kind) :
    EndsAt (kind.file directory name) directory.steps (kind.fileName name) :=
  ⟨Path.steps_join (kind.isName_fileName hslash) directory, kind.endsInSlash_file directory name⟩

/-- The paths of a name without an ending differ in their endings only. -/
theorem exists_bytes_file (directory : Path) (h : Unending name) : ∃ t : List UInt8,
    ∀ kind : Kind, (kind.file directory name).bytes = t ++ kind.endingBytes := by
  have habsolute : ∀ kind : Kind,
      (⟨RawText.ofText name ++ kind.ending⟩ : Path).isAbsolute = (⟨name⟩ : Path).isAbsolute := by
    intro kind
    rw [Bool.eq_iff_iff, Path.isAbsolute_iff, Path.isAbsolute_iff, Path.bytes_mk, Path.bytes_mk,
      RawText.bytes_append, List.head?_append]
    cases (RawText.ofText name).bytes with
    | nil => cases kind <;> decide
    | cons b t => rfl
  refine ⟨(directory.join ⟨name⟩).bytes, fun kind => ?_⟩
  rw [Kind.file, kind.fileName_of_unending h, RawText.ofText_append,
    Path.bytes_join_append (habsolute kind)]
  rfl

/-- The files of a name without an ending stand side by side, wherever its slashes lead. -/
theorem exists_endsAt (directory : Path) (h : Unending name) :
    ∃ (steps : List Step) (stem : RawText) (absolute : Bool), ∀ kind : Kind,
      EndsAt (kind.file directory name) steps (stem ++ kind.ending) ∧
        (kind.file directory name).isAbsolute = absolute := by
  obtain ⟨t, ht⟩ := exists_bytes_file directory h
  obtain ⟨steps, stem, hsteps⟩ := Path.exists_stepsOf_append t
  refine ⟨steps, ⟨stem⟩, (t ++ [Path.dot]).head? == some Path.slash, fun kind => ⟨⟨?_, ?_⟩, ?_⟩⟩
  · rw [Path.steps_eq, ht kind, hsteps _ kind.slash_endingBytes kind.length_endingBytes]
    rfl
  · exact kind.endsInSlash_file directory name
  · rw [Bool.eq_iff_iff, Path.isAbsolute_iff, ht, List.head?_append, List.head?_append,
      kind.head?_endingBytes]
    simp

/-! ## Files that are there or missing -/

/-- The paths of a name lead into `d`, to entries that are files or missing. -/
structure Placed (fs : FileSystem) (directory : Path) (name : String) (steps : List Step)
    (entry : Kind → RawText) (d : Location) : Prop where
  endsAt : ∀ kind, EndsAt (Kind.file kind directory name) steps (entry kind)
  enters : ∀ kind, Enters fs maxLinks steps (origin (Kind.file kind directory name) fs.cwd) d
  file : ∀ kind, FileAt fs (entry kind :: d)

/-- A name without slashes is placed in the directory. -/
theorem placed_of_name (hdir : fs.locate directory = .ok (d, .directory))
    (hslash : '/' ∉ name.toList) (hfile : ∀ kind : Kind, FileAt fs (kind.fileName name :: d)) :
    Placed fs directory name directory.steps (·.fileName name) d := by
  refine ⟨fun kind => endsAt_fileName hslash kind, fun kind => ?_, hfile⟩
  rw [origin, kind.isAbsolute_file hslash]
  exact enters_of_locate hdir

namespace Placed

theorem entry_inj (h : Placed fs directory name steps entry d) {kind kind' : Kind}
    (heq : entry kind = entry kind') : kind = kind' :=
  Kind.eq_of_endingBytes_suffix (Kind.endingBytes_suffix_entry (h.endsAt kind))
    (heq ▸ Kind.endingBytes_suffix_entry (h.endsAt kind'))

theorem of_ways (h : Placed fs directory name steps entry d) (hk : KeepsWays fs fs')
    (hfile : ∀ kind, FileAt fs' (entry kind :: d)) :
    Placed fs' directory name steps entry d := by
  refine ⟨h.endsAt, fun kind => ?_, hfile⟩
  rw [hk.cwd]
  exact (h.enters kind).of_ways hk

/-- A file is found where the name is placed, if its path can be used. -/
theorem isFile_iff (h : Placed fs directory name steps entry d) (kind : Kind) :
    fs.isFile (kind.file directory name) = true ↔
      Fits (kind.file directory name) (entry kind) ∧ fs.node? (entry kind :: d) ≠ none := by
  rw [FileSystem.isFile_iff]
  constructor
  · rintro ⟨l, c, hl⟩
    obtain ⟨hs, _⟩ := locate_file_iff.mp hl
    have hfault := (spot_ok_iff.mp hs).1
    obtain ⟨n, hspot⟩ := spot_of_enters (h.endsAt kind) hfault (h.enters kind) ⟨true, false⟩
    rw [hs, follow_entry (h.file kind)] at hspot
    split at hspot
    · cases hspot
    · next hshort =>
      refine ⟨⟨hfault, Nat.le_of_not_lt hshort⟩, fun hnone => ?_⟩
      rw [hnone] at hspot
      cases hspot
  · rintro ⟨hfits, hne⟩
    obtain ⟨c, hc⟩ := (h.file kind).cases.resolve_left hne
    obtain ⟨n, hspot⟩ := spot_of_enters (h.endsAt kind) hfits.fault (h.enters kind) ⟨true, false⟩
    rw [follow_entry (h.file kind), if_neg (Nat.not_lt.mpr hfits.name), hc] at hspot
    exact ⟨_, c, locate_file_iff.mpr ⟨hspot, hc⟩⟩

/-- Nothing is found where no entry is. -/
theorem locate_ne (h : Placed fs directory name steps entry d) (kind : Kind)
    (hnone : fs.node? (entry kind :: d) = none) (node : Node) :
    fs.locate (kind.file directory name) ≠ .ok (l, node) := by
  intro hl
  have hway : fs.LeadsTo (kind.file directory name) l := leadsTo_of_locate hl
  rw [LeadsTo, (h.endsAt kind).steps] at hway
  obtain ⟨m, hm, hlast⟩ := hway.split
  obtain ⟨s, hf⟩ := (h.enters kind).follows false
  obtain rfl : m = d := hm.unique (hf.leads (Or.inl rfl))
  have hnode := node?_of_locate hl
  rw [hlast.into_none hnone] at hnode
  cases hnode

theorem erase (h : Placed fs directory name steps entry d)
    (hl : ∃ c, fs.node? l = some (.file c)) :
    Placed (fs.erase l) directory name steps entry d := by
  obtain ⟨c, hc⟩ := hl
  have hcleared : Cleared fs [l] (fs.erase l) :=
    .cons_of_erase (ne_root_of_file hc) (.refl _)
  have hfile : ∀ m ∈ [l], FileAt fs m := by
    intro m hm n hn
    obtain rfl := List.mem_singleton.mp hm
    exact ⟨c, Option.some.inj (hn.symm.trans hc)⟩
  exact h.of_ways (hcleared.keepsWays hfile) fun kind => hcleared.fileAt (h.file kind)

theorem set (h : Placed fs directory name steps entry d) (hl : l ≠ []) (hfile : FileAt fs l)
    (c : ByteArray) : Placed (fs.set l (.file c)) directory name steps entry d := by
  have hfilled : Filled fs [l] (fs.set l (.file c)) := .cons_of_set hl (.refl _)
  have hls : ∀ m ∈ [l], FileAt fs m := by
    intro m hm
    rwa [List.mem_singleton.mp hm]
  exact h.of_ways (hfilled.keepsWays hls) fun kind => hfilled.fileAt (h.file kind)

end Placed

/-! ## Storing and discarding -/

/-- Storing fills the entries, whose paths can be used then. -/
theorem writeKinds_placed {files : SyntaxFiles} {kinds : List Kind} {written : List Path}
    (hg : Grounded fs) (h : Placed fs directory name steps entry d)
    (hwrite : files.writeKinds directory name kinds fs = (.ok written, fs')) :
    Grounded fs' ∧ Filled fs (kinds.map (entry · :: d)) fs' ∧
      ∀ kind ∈ kinds, Fits (kind.file directory name) (entry kind) := by
  induction kinds generalizing fs written with
  | nil =>
    cases hwrite
    exact ⟨hg, .refl _, by simp⟩
  | cons kind kinds ih =>
    obtain ⟨next, paths, hfirst, hrest, _⟩ := writeKinds_cons_ok hwrite
    have hroot : entry kind :: d ≠ [] := List.cons_ne_nil _ _
    have hgnext := grounded_write hg hfirst
    obtain ⟨rfl, hfits⟩ :=
      write_entry hg (h.endsAt kind) (h.enters kind) (h.file kind) hfirst
    obtain ⟨hg', hfilled, hall⟩ := ih hgnext (h.set hroot (h.file kind) _) hrest
    exact ⟨hg', hfilled.cons_of_set hroot, List.forall_mem_cons.mpr ⟨hfits, hall⟩⟩

section Kinds

variable {kind : Kind} {kinds : List Kind}

theorem removeKinds_cons_of_notFound
    (h : fs.remove (kind.file directory name) = .error .notFound) :
    removeKinds directory name (kind :: kinds) fs = removeKinds directory name kinds fs := by
  -- by the equation of the whole, since the one for this case would follow all the links of a path
  rw [removeKinds.eq_def]
  dsimp only
  rw [h]

theorem removeKinds_cons_of_error {e : FileError}
    (h : fs.remove (kind.file directory name) = .error e) (hne : e ≠ .notFound) :
    removeKinds directory name (kind :: kinds) fs
      = (.error (.file (kind.file directory name) e), fs) := by
  rw [removeKinds.eq_def]
  dsimp only
  rw [h]
  cases e with
  | notFound => exact absurd rfl hne
  | _ => rfl

theorem removeKinds_cons_of_ok (h : fs.remove (kind.file directory name) = .ok fs') :
    removeKinds directory name (kind :: kinds) fs
      = ((removeKinds directory name kinds fs').1.map (kind.file directory name :: ·),
        (removeKinds directory name kinds fs').2) := by
  rw [removeKinds.eq_def]
  dsimp only
  rw [h]
  dsimp only
  split <;> next hrest => rw [hrest]; rfl

/-- Where no path leads to a file, nothing is taken away. -/
theorem eq_of_removeKinds_ok {removed : List Path}
    (hnone : ∀ kind next, fs.remove (Kind.file kind directory name) ≠ .ok next)
    (h : removeKinds directory name kinds fs = (.ok removed, fs')) : fs' = fs := by
  induction kinds with
  | nil => exact (Prod.mk.inj h).2.symm
  | cons kind kinds ih =>
    cases hremove : fs.remove (kind.file directory name) with
    | ok next => exact absurd hremove (hnone kind next)
    | error e =>
      by_cases he : e = .notFound
      · subst he
        rw [removeKinds_cons_of_notFound hremove] at h
        exact ih h
      · rw [removeKinds_cons_of_error hremove he] at h
        cases h

end Kinds

/--
**Discarding takes away all files that are there**, and returns them in order, or a path cannot be
used.
-/
theorem removeKinds_cases {kinds : List Kind} (h : Placed fs directory name steps entry d)
    (hnodup : kinds.Nodup) :
    (∃ fs', removeKinds directory name kinds fs
        = (.ok ((kinds.filter fun kind => (fs.node? (entry kind :: d)).isSome).map
          (·.file directory name)), fs') ∧ Cleared fs (kinds.map (entry · :: d)) fs') ∨
      ∃ kind ∈ kinds, ¬Fits (kind.file directory name) (entry kind) ∧
        ∃ e, (removeKinds directory name kinds fs).1 = .error e := by
  induction kinds generalizing fs with
  | nil => exact Or.inl ⟨fs, rfl, .refl fs⟩
  | cons kind kinds ih =>
    obtain ⟨hkind, hnodup⟩ := List.nodup_cons.mp hnodup
    rcases remove_cases (h.endsAt kind) (h.enters kind) (h.file kind) with
      ⟨hremove, hnone⟩ | ⟨hremove, c, hc⟩ | ⟨hfits, e, hne, hremove⟩
    · -- nothing is there
      rw [removeKinds_cons_of_notFound hremove, List.filter_cons_of_neg (by simp [hnone])]
      rcases ih h hnodup with ⟨fs', hrest, hcleared⟩ | ⟨kind', hmem, hrest⟩
      · exact Or.inl ⟨fs', hrest, hcleared.cons_of_none hnone⟩
      · exact Or.inr ⟨kind', List.mem_cons_of_mem _ hmem, hrest⟩
    · -- the file is removed, which leaves the files of the other kinds as they are
      rw [removeKinds_cons_of_ok hremove, List.filter_cons_of_pos (by simp [hc])]
      have hroot : entry kind :: d ≠ [] := List.cons_ne_nil _ _
      have hsame : (kinds.filter fun kind' => ((fs.erase (entry kind :: d)).node?
          (entry kind' :: d)).isSome) = kinds.filter fun kind' =>
            (fs.node? (entry kind' :: d)).isSome := by
        refine List.filter_congr fun kind' hmem => ?_
        rw [node?_erase hroot, if_neg]
        intro heq
        obtain rfl := h.entry_inj (List.cons.inj heq).1
        exact hkind hmem
      rcases ih (h.erase ⟨c, hc⟩) hnodup with ⟨fs', hrest, hcleared⟩ | ⟨kind', hmem, hfits, e, he⟩
      · refine Or.inl ⟨fs', ?_, hcleared.cons_of_erase hroot⟩
        rw [hrest, hsame]
        rfl
      · refine Or.inr ⟨kind', List.mem_cons_of_mem _ hmem, hfits, e, ?_⟩
        rw [he]
        rfl
    · -- the name does not fit, which is the only failure
      rw [removeKinds_cons_of_error hremove hne]
      exact Or.inr ⟨kind, List.mem_cons_self, hfits, _, rfl⟩

end Highlight.SyntaxFiles
