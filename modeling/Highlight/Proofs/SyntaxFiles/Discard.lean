import Highlight.Proofs.SyntaxFiles.Placement
import Highlight.Housekeeping

/-!
# What deleting a scheme takes away

A file that is gone was where a path of the given name led to (`exists_spot_of_gone`). From there on
the name is placed in the directory of that file, and with one file of a scheme all are taken away
(`delete_leaves_no_part`).

A name with an ending is a file name for its own kind and the name of a scheme for the others. Then
a part of the scheme is left (`delete_leaves_theme`).
-/

namespace Highlight.SyntaxFiles

open FileSystem

variable {directory : Path} {name : String} {fs fs' : FileSystem} {l : Location}

/-- `fs'` is `fs` with some nodes gone, none of them a directory. -/
structure Remains (fs fs' : FileSystem) : Prop where
  cwd : fs'.cwd = fs.cwd
  node : ∀ m n, fs'.node? m = some n → fs.node? m = some n
  grounded : Grounded fs'

/-- A file that is gone was where one of the paths led to, when it was this path's turn. -/
theorem exists_spot_of_gone {kinds : List Kind} {removed : List Path} {n : Node}
    (hg : Grounded fs) (h : removeKinds directory name kinds fs = (.ok removed, fs'))
    (hl : fs.node? l = some n) (hgone : fs'.node? l = none) :
    ∃ kind ∈ kinds, ∃ now slash, Remains fs now ∧
      now.spot ⟨false, false⟩ (Kind.file kind directory name) = .ok (.taken l slash) := by
  induction kinds generalizing fs removed with
  | nil =>
    cases h
    rw [hl] at hgone
    cases hgone
  | cons kind kinds ih =>
    cases hremove : fs.remove (kind.file directory name) with
    | error e =>
      -- a kind that is not there is passed over, and the file went with a later one
      by_cases he : e = .notFound
      · subst he
        rw [removeKinds_cons_of_notFound hremove] at h
        obtain ⟨kind', hmem, hfound⟩ := ih hg h hl
        exact ⟨kind', List.mem_cons_of_mem _ hmem, hfound⟩
      · rw [removeKinds_cons_of_error hremove he] at h
        cases h
    | ok next =>
      rw [removeKinds_cons_of_ok hremove] at h
      obtain ⟨hremoved, hrest⟩ := Prod.mk.inj h
      obtain ⟨paths, hok, _⟩ := exists_of_map_ok hremoved
      obtain ⟨m, slash, hspot, hne, rfl⟩ := remove_ok hremove
      have hroot : m ≠ [] := fun hm => hne (hm ▸ node?_root fs)
      -- this removal took the file, or a later one did
      by_cases hm : m = l
      · subst hm
        exact ⟨kind, List.mem_cons_self, fs, slash, ⟨rfl, fun _ _ => id, hg⟩, hspot⟩
      · have hl' : (fs.erase m).node? l = some n := by rw [node?_erase hroot, if_neg hm, hl]
        obtain ⟨kind', hmem, now, slash', hremains, hspot'⟩ :=
          ih (hg.erase hroot hne) (Prod.ext hok hrest) hl'
        refine ⟨kind', List.mem_cons_of_mem _ hmem, now, slash', ⟨hremains.cwd, ?_, ?_⟩, hspot'⟩
        · -- what stands after the removal stood before
          intro k n' hk
          have hold := hremains.node k n' hk
          rw [node?_erase hroot] at hold
          split at hold
          · cases hold
          · exact hold
        · exact hremains.grounded

end Highlight.SyntaxFiles

namespace Highlight.Housekeeping

open FileSystem SyntaxFiles

variable {fs fs' : FileSystem} {setup : Setup} {name : String} {d : Location}

theorem discard_of_delete {status : String} (h : delete fs setup name = (.ok status, fs')) :
    ∃ removed, discard fs setup.outputDirectory name = (.ok removed, fs') := by
  -- not by an equation, since proving one would follow all the links of a path
  delta delete at h
  rcases hdiscard : discard fs setup.outputDirectory name with ⟨_ | removed, left⟩ <;>
    rw [hdiscard] at h
  · cases h
  · refine ⟨removed, ?_⟩
    cases removed <;> exact Prod.ext rfl (Prod.mk.inj h).2

/--
**Deleting leaves no part of a scheme behind.** Whichever directory holds only files, the output
directory or another that the name leads to: if some file of a scheme is gone from there, all are,
unless the name that was given has the ending of a kind.
-/
theorem delete_leaves_no_part {status : String} (hg : Grounded fs)
    (hfiles : ∀ entry, FileAt fs (entry :: d)) (hname : Unending name)
    (h : delete fs setup name = (.ok status, fs')) (scheme : RawText)
    (hgone : ∃ kind : Kind, fs.node? ((scheme ++ kind.ending) :: d) ≠ none ∧
      fs'.node? ((scheme ++ kind.ending) :: d) = none) (kind : Kind) :
    fs'.node? ((scheme ++ kind.ending) :: d) = none := by
  obtain ⟨removed, hdiscard⟩ := discard_of_delete h
  obtain ⟨gone, hthere, hgone⟩ := hgone
  obtain ⟨n, hn⟩ := Option.ne_none_iff_exists'.mp hthere
  obtain ⟨steps, stem, absolute, hpaths⟩ := exists_endsAt setup.outputDirectory hname
  -- the path that led to the file leads into the output directory, and so do the others
  obtain ⟨kind', _, now, slash, hremains, hspot⟩ := exists_spot_of_gone hg hdiscard hn hgone
  obtain ⟨d', links, henters, hlast⟩ :=
    enters_of_spot hremains.grounded (hpaths kind').1 hspot
  obtain ⟨hentry, rfl⟩ := List.cons.inj (eq_of_follows hlast)
  obtain ⟨_, rfl⟩ := Kind.ending_inj hentry
  have hplaced : Placed fs setup.outputDirectory name steps (scheme ++ Kind.ending ·) d := by
    refine ⟨fun kind => (hpaths kind).1, fun kind => ?_, fun kind => hfiles _⟩
    have horigin : origin (Kind.file kind' setup.outputDirectory name) now.cwd
        = origin (Kind.file kind setup.outputDirectory name) fs.cwd := by
      rw [origin, origin, (hpaths kind).2, (hpaths kind').2, hremains.cwd]
    rw [horigin] at henters
    exact henters.of_ways ⟨hremains.cwd.symm, fun m n _ hm => hremains.node m n hm⟩
  rcases removeKinds_cases hplaced (by decide : Kind.all.Nodup) with
    ⟨left, hok, hcleared⟩ | ⟨_, _, _, e, herror⟩
  · -- all three were removed, and the file is one of them
    obtain rfl : left = fs' := (Prod.mk.inj (hok.symm.trans hdiscard)).2
    rw [hcleared.node, if_pos]
    exact List.mem_map_of_mem (by cases kind <;> simp [Kind.all])
  · -- an error is not the status that was answered
    have hok : (discard fs setup.outputDirectory name).1 = .ok removed := by rw [hdiscard]
    exact absurd (herror.symm.trans hok) (by simp)

/-- A directory with the three files of one scheme. -/
def demoFiles : FileSystem where
  nodes := [(["out"], .directory), (["demo.tmLanguage.json", "out"], .file "".toUTF8),
    (["demo.tmTheme.json", "out"], .file "".toUTF8),
    (["demo.sublime-settings", "out"], .file "".toUTF8)]

theorem grounded_demoFiles : Grounded demoFiles := by
  refine grounded_of_nodes rfl ?_
  simp only [demoFiles, List.forall_mem_cons]
  exact ⟨rfl, rfl, rfl, rfl, fun e he => by cases he⟩

theorem fileAt_demoFiles (entry : RawText) : FileAt demoFiles [entry, "out"] := by
  intro n hn
  rw [node?, if_neg (List.cons_ne_nil _ _)] at hn
  have hmem := mem_of_find hn
  simp only [demoFiles, List.mem_cons, Prod.mk.injEq, List.not_mem_nil, or_false] at hmem
  rcases hmem with ⟨h, _⟩ | ⟨_, rfl⟩ | ⟨_, rfl⟩ | ⟨_, rfl⟩
  · cases (List.cons.inj h).2
  · exact ⟨_, rfl⟩
  · exact ⟨_, rfl⟩
  · exact ⟨_, rfl⟩

theorem delete_leaves_no_part_of_demo :
    (delete demoFiles ⟨⟨"/out"⟩, ⟨"/shared"⟩, none⟩ "demo").2.node?
      ["demo" ++ Kind.theme.ending, "out"] = none := by
  have hstatus : (delete demoFiles ⟨⟨"/out"⟩, ⟨"/shared"⟩, none⟩ "demo").1
      = .ok "Highlighting scheme demo removed." := by decide +kernel
  have hgone : (delete demoFiles ⟨⟨"/out"⟩, ⟨"/shared"⟩, none⟩ "demo").2.node?
      ["demo" ++ Kind.grammar.ending, "out"] = none := by decide +kernel
  have hthere : demoFiles.node? ["demo" ++ Kind.grammar.ending, "out"] ≠ none := by decide +kernel
  generalize hresult : delete demoFiles ⟨⟨"/out"⟩, ⟨"/shared"⟩, none⟩ "demo" = result
    at hstatus hgone ⊢
  obtain ⟨status, left⟩ := result
  exact delete_leaves_no_part grounded_demoFiles fileAt_demoFiles
    (unending_of_not_mem_dot (by decide)) (hresult.trans (Prod.ext hstatus rfl)) "demo"
    ⟨.grammar, hthere, hgone⟩ .theme

/-- The name of the grammar's file is the name of another scheme to the other kinds. -/
theorem delete_leaves_theme : ∃ status fs', Grounded demoFiles ∧
    (∀ entry, FileAt demoFiles [entry, "out"]) ∧
    delete demoFiles ⟨⟨"/out"⟩, ⟨"/shared"⟩, none⟩ "demo.tmLanguage.json" = (.ok status, fs') ∧
    demoFiles.node? ["demo" ++ Kind.grammar.ending, "out"] ≠ none ∧
    fs'.node? ["demo" ++ Kind.grammar.ending, "out"] = none ∧
    fs'.node? ["demo" ++ Kind.theme.ending, "out"] ≠ none := by
  have hstatus : (delete demoFiles ⟨⟨"/out"⟩, ⟨"/shared"⟩, none⟩ "demo.tmLanguage.json").1
      = .ok "Highlighting scheme demo.tmLanguage.json removed." := by decide +kernel
  have hleft : (delete demoFiles ⟨⟨"/out"⟩, ⟨"/shared"⟩, none⟩ "demo.tmLanguage.json").2.node?
        ["demo" ++ Kind.grammar.ending, "out"] = none ∧
      (delete demoFiles ⟨⟨"/out"⟩, ⟨"/shared"⟩, none⟩ "demo.tmLanguage.json").2.node?
        ["demo" ++ Kind.theme.ending, "out"] ≠ none := by decide +kernel
  have hthere : demoFiles.node? ["demo" ++ Kind.grammar.ending, "out"] ≠ none := by decide +kernel
  generalize delete demoFiles ⟨⟨"/out"⟩, ⟨"/shared"⟩, none⟩ "demo.tmLanguage.json" = result
    at hstatus hleft ⊢
  obtain ⟨status, left⟩ := result
  exact ⟨_, _, grounded_demoFiles, fileAt_demoFiles, Prod.ext hstatus rfl, hthere, hleft⟩

end Highlight.Housekeeping
