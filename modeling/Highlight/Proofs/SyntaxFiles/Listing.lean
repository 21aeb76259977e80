import Highlight.Proofs.SyntaxFiles.Discard
import Mathlib.Data.List.Sort
import Mathlib.Data.String.Basic

/-!
# Which schemes are listed

The names of the grammars in a directory, without their ending, are listed in order and each once
(`lists_compiled`); the entries alone tell what the list is (`Lists.unique`). A scheme that is
listed can be discarded, and is not listed any more afterwards (`listed_is_discarded`).

This needs that the grammar is a file, that its name without the ending does not have the ending
once more, and that the paths can be used. Listing does not look at any of that
(`listed_is_not_discarded`, `compiled_lists_directory`).
-/

namespace Highlight.SyntaxFiles

open FileSystem

variable {directory : Path} {fs fs' : FileSystem} {d : Location} {names names' : List String}
  {name n : String}

/-! ## The list -/

theorem withoutEnding?_eq_some {ending : String} :
    withoutEnding? ending name = some n ↔ name = n ++ ending := by
  rw [withoutEnding?]
  constructor
  · intro h
    split at h
    · next hsuffix =>
      obtain ⟨t, ht⟩ := List.isSuffixOf_iff_suffix.mp hsuffix
      have hlength := congrArg List.length ht
      rw [List.length_append] at hlength
      have htake : name.toList.take (name.toList.length - ending.toList.length) = t := by
        rw [← ht, List.take_left' (by simp)]
      rw [htake] at h
      cases h
      rw [← String.toList_inj, String.toList_append, String.toList_ofList, ht]
    · cases h
  · rintro rfl
    rw [if_pos (List.isSuffixOf_iff_suffix.mpr (by simp)), String.toList_append,
      List.take_left' (by simp), String.ofList_toList]

theorem schemeOf?_eq_some {entry : RawText} :
    schemeOf? entry = some n ↔ entry = n ++ Kind.grammar.ending := by
  rw [schemeOf?, Option.bind_eq_some_iff, ← RawText.ofText_append]
  constructor
  · rintro ⟨name, hname, hn⟩
    rw [RawText.text?_eq_some_iff.mp hname, withoutEnding?_eq_some.mp hn]
  · rintro rfl
    exact ⟨_, RawText.text?_ofText _, withoutEnding?_eq_some.mpr rfl⟩

/-- The names of the grammars that are entries of a directory, in order and each once. -/
structure Lists (fs : FileSystem) (d : Location) (names : List String) : Prop where
  sorted : names.SortedLT
  mem_iff : ∀ n, n ∈ names ↔ ∃ node, fs.node? ((n ++ Kind.grammar.ending) :: d) = some node

theorem Lists.unique (h : Lists fs d names) (h' : Lists fs d names') : names = names' :=
  h.sorted.eq_of_mem_iff h'.sorted fun n => (h.mem_iff n).trans (h'.mem_iff n).symm

/-- What is listed for a directory. -/
theorem lists_compiled (h : fs.locate directory = .ok (d, .directory)) :
    ∃ names, compiled fs directory = .ok names ∧ Lists fs d names := by
  have hcompiled : compiled fs directory = .ok (((fs.entries d).filterMap
      schemeOf?).mergeSort (· ≤ ·)) := by
    rw [compiled, list_of_locate h]
  refine ⟨_, hcompiled, List.sortedLE_mergeSort.sortedLT_of_nodup ?_, fun n => ?_⟩
  · rw [(List.mergeSort_perm _ _).nodup_iff]
    refine (nodup_entries fs d).filterMap fun entry entry' n hn hn' => ?_
    rw [schemeOf?_eq_some.mp hn, schemeOf?_eq_some.mp hn']
  · rw [List.mem_mergeSort, List.mem_filterMap, ← mem_entries]
    constructor
    · rintro ⟨entry, hmem, hn⟩
      rwa [schemeOf?_eq_some.mp hn] at hmem
    · exact fun hmem => ⟨_, hmem, schemeOf?_eq_some.mpr rfl⟩

theorem compiled_iff (h : fs.locate directory = .ok (d, .directory)) :
    compiled fs directory = .ok names ↔ Lists fs d names := by
  obtain ⟨names', hcompiled, hlists⟩ := lists_compiled h
  rw [hcompiled]
  constructor
  · intro heq
    cases heq
    exact hlists
  · exact fun hnames => congrArg _ (hlists.unique hnames)

/-! ## Listing and discarding -/

theorem Lists.erase (h : Lists fs d names) (hn : fs'.node? ((n ++ Kind.grammar.ending) :: d) = none)
    (hsame : ∀ n', n' ≠ n → fs'.node? ((n' ++ Kind.grammar.ending) :: d)
      = fs.node? ((n' ++ Kind.grammar.ending) :: d)) : Lists fs' d (names.erase n) := by
  refine ⟨?_, fun n' => ?_⟩
  · exact (h.sorted.pairwise.sublist List.erase_sublist).sortedLT
  · rw [h.sorted.nodup.mem_erase_iff, h.mem_iff]
    by_cases hne : n' = n
    · subst hne
      simp [hn]
    · rw [hsame n' hne, and_iff_right hne]

/--
**What is listed can be discarded.** The names that are listed are those of the grammars that are
there. Where the files of such a name are files or missing, its paths can be used, and it does not
have the ending of a grammar itself, discarding it succeeds and takes the grammar away, and just
this name is not listed any more.
-/
theorem listed_is_discarded (h : fs.locate directory = .ok (d, .directory))
    (hslash : ∀ entry ∈ fs.entries d, Path.slash ∉ entry.bytes) :
    ∃ names, compiled fs directory = .ok names ∧ Lists fs d names ∧
      ∀ n ∈ names, ¬Kind.grammar.ending.toList <:+ n.toList →
        (∀ kind : Kind, FileAt fs (kind.fileName n :: d)) →
        (∀ kind : Kind, Fits (kind.file directory n) (kind.fileName n)) →
        ∃ removed fs', discard fs directory n = (.ok removed, fs') ∧
          Kind.grammar.file directory n ∈ removed ∧
          fs'.node? ((n ++ Kind.grammar.ending) :: d) = none ∧
          compiled fs' directory = .ok (names.erase n) := by
  obtain ⟨names, hcompiled, hlists⟩ := lists_compiled h
  refine ⟨names, hcompiled, hlists, fun n hmem hending hfile hfits => ?_⟩
  have hgrammar : RawText.ofText (Kind.grammar.fileName n) = n ++ Kind.grammar.ending := by
    rw [Kind.fileName, if_neg, RawText.ofText_append]
    rwa [List.isSuffixOf_iff_suffix]
  have hname : '/' ∉ n.toList := by
    have hentry := hslash _ (mem_entries.mpr ((hlists.mem_iff n).mp hmem))
    rw [RawText.bytes_append, List.mem_append, not_or] at hentry
    exact mt Path.slash_mem_ofText_iff.mpr hentry.1
  have hplaced := placed_of_name h hname hfile
  rcases removeKinds_cases hplaced (by decide : Kind.all.Nodup) with
    ⟨left, hdiscard, hcleared⟩ | ⟨kind, _, hunfit, _⟩
  · -- the file of the grammar is what the name was listed for
    have hgone : left.node? ((n ++ Kind.grammar.ending) :: d) = none := by
      rw [hcleared.node, ← hgrammar, if_pos]
      exact List.mem_map_of_mem (by decide)
    -- every other name keeps the file of its grammar
    have hsame : ∀ n', n' ≠ n → left.node? ((n' ++ Kind.grammar.ending) :: d)
        = fs.node? ((n' ++ Kind.grammar.ending) :: d) := by
      intro n' hne
      rw [hcleared.node, if_neg]
      intro hmem
      obtain ⟨kind, _, heq⟩ := List.mem_map.mp hmem
      have hentry : RawText.ofText (kind.fileName n) = n' ++ Kind.grammar.ending :=
        (List.cons.inj heq).1
      -- of the three file names only that of the grammar has its ending
      obtain rfl : kind = Kind.grammar := by
        refine Kind.eq_of_endingBytes_suffix (kind.endingBytes_suffix_fileName n) ?_
        rw [hentry]
        exact List.suffix_append _ _
      rw [hgrammar] at hentry
      exact hne (RawText.ofText_inj.mp (Kind.ending_inj hentry).2.symm)
    have hdirectory : left.locate directory = .ok (d, .directory) :=
      locate_of_ways (hcleared.keepsWays (List.forall_mem_map.mpr fun kind _ => hfile kind)) h
    refine ⟨_, left, hdiscard, ?_, hgone, ?_⟩
    · refine List.mem_map_of_mem (List.mem_filter.mpr ⟨by decide, ?_⟩)
      obtain ⟨node, hnode⟩ := (hlists.mem_iff n).mp hmem
      rw [hgrammar, hnode]
      rfl
    · exact (compiled_iff hdirectory).mpr (hlists.erase hgone hsame)
  · -- every kind of file has a name that fits
    exact absurd (hfits kind) hunfit

theorem listed_is_discarded_of_demo : ∃ removed fs', compiled Housekeeping.demoFiles ⟨"/out"⟩
      = .ok ["demo"] ∧
    discard Housekeeping.demoFiles ⟨"/out"⟩ "demo" = (.ok removed, fs') ∧
    Kind.grammar.file ⟨"/out"⟩ "demo" ∈ removed ∧ compiled fs' ⟨"/out"⟩ = .ok [] := by
  have hlocate : Housekeeping.demoFiles.locate ⟨"/out"⟩ = .ok (["out"], .directory) := by rfl
  have hentries : Housekeeping.demoFiles.entries ["out"]
      = ["demo.tmLanguage.json", "demo.tmTheme.json", "demo.sublime-settings"] := by
    decide +kernel
  have hfits : ∀ kind : Kind, Fits (kind.file ⟨"/out"⟩ "demo") (kind.fileName "demo") := by
    intro kind
    cases kind <;> exact ⟨by decide +kernel, by decide +kernel⟩
  have hdemo : compiled Housekeeping.demoFiles ⟨"/out"⟩ = .ok ["demo"] := by decide +kernel
  obtain ⟨names, hcompiled, _, hdiscard⟩ := listed_is_discarded hlocate (by
    rw [hentries]
    decide)
  obtain rfl : names = ["demo"] := Except.ok.inj (hcompiled.symm.trans hdemo)
  obtain ⟨removed, left, hdiscarded, hmem, _, hafter⟩ := hdiscard "demo" (by decide) (by decide)
    (fun kind => Housekeeping.fileAt_demoFiles _) hfits
  exact ⟨removed, left, hdemo, hdiscarded, hmem, hafter.trans (by decide +kernel)⟩

/-- A grammar whose name has the ending once more. -/
def endingTwice : FileSystem where
  nodes := [(["out"], .directory),
    (["demo.tmLanguage.json.tmLanguage.json", "out"], .file "".toUTF8)]

/-- What is listed is taken for the name of another file. -/
theorem listed_is_not_discarded :
    compiled endingTwice ⟨"/out"⟩ = .ok ["demo.tmLanguage.json"] ∧
    endingTwice.isFile ⟨"/out/demo.tmLanguage.json.tmLanguage.json"⟩ = true ∧
    discard endingTwice ⟨"/out"⟩ "demo.tmLanguage.json" = (.ok [], endingTwice) := by
  refine ⟨by decide +kernel, by decide +kernel, ?_⟩
  have hremove : ∀ kind : Kind,
      endingTwice.remove (kind.file ⟨"/out"⟩ "demo.tmLanguage.json") = .error .notFound := by
    intro kind
    cases kind <;> rfl
  rw [discard, Kind.all, removeKinds_cons_of_notFound (hremove _),
    removeKinds_cons_of_notFound (hremove _), removeKinds_cons_of_notFound (hremove _)]
  rfl

/-- A directory with the name of a grammar. -/
def endingOnDirectory : FileSystem where
  nodes := [(["out"], .directory), (["demo.tmLanguage.json", "out"], .directory)]

/-- It is listed without being a grammar, and it is not removed. -/
theorem compiled_lists_directory :
    compiled endingOnDirectory ⟨"/out"⟩ = .ok ["demo"] ∧
    endingOnDirectory.isFile ⟨"/out/demo.tmLanguage.json"⟩ = false ∧
    (discard endingOnDirectory ⟨"/out"⟩ "demo").1
      = .error (.file ⟨"/out/demo.tmLanguage.json"⟩ .isADirectory) :=
  ⟨by decide +kernel, by decide +kernel, by decide +kernel⟩

end Highlight.SyntaxFiles
