import Highlight.Proofs.FileSystem.Operations
import Highlight.Proofs.Include.Search
import Highlight.Proofs.Path
import Highlight.Scheme.Load

/-!
# Which keywords an include list brings

A scheme that is loaded gets its name from its file, up to the first dot, and a document that is
included is found under its whole name. So the name of a scheme may stand in its own include list
and mean another file: `demo` in `demo.more.json` means `demo.json`. Names are all that the search
for included documents goes by, and it takes this one for the scheme itself. The documents of all
other names are joined to the scheme (`includes_bring_keywords`).
-/

namespace Highlight

/-! ## What the search gathers -/

/-- All names that are asked for are visited. -/
theorem mem_visitAll_of_mem {l : Loader} {visited names : List String} {n : String}
    (hn : n ∈ names) (hv : n ∉ visited) : n ∈ visitAll l visited names := by
  induction names generalizing visited with
  | nil => cases hn
  | cons name names ih =>
    rw [visitAll_cons, List.mem_append]
    by_cases hvisit : n ∈ visit l visited name
    · -- the name came up below the first one, or it waits for its own turn
      exact Or.inl hvisit
    · have hne : n ≠ name := by
        rintro rfl
        rw [visit_of_not_mem hv] at hvisit
        exact hvisit List.mem_cons_self
      have hlater : n ∉ (visit l visited name).reverse ++ visited := by
        rw [List.mem_append, List.mem_reverse, not_or]
        exact ⟨hvisit, hv⟩
      exact Or.inr (ih (List.mem_of_ne_of_mem hne hn) hlater)

/-! ## Schemes on disk -/

namespace Scheme

variable {fs : FileSystem} {path : Path} {scheme : Scheme}

theorem load_of_read {text : String} (hread : fs.read path = .ok text.toUTF8)
    (hparse : parse text = .ok scheme) : load fs path = .ok (scheme.placed path) := by
  rw [load, FileSystem.readText_of_read hread]
  dsimp only
  rw [hparse]

theorem name_of_load (h : load fs path = .ok scheme) : scheme.name = nameOf path := by
  obtain ⟨_, _, _, _, rfl⟩ := exists_of_load h
  rfl

theorem loadInclude_of_load {directories : List Path} {n : String} {file : Path} {doc : Scheme}
    (hfile : (directories.map (includeFile · n)).find? fs.isFile = some file)
    (hdoc : load fs file = .ok doc) : loadInclude fs directories n = some doc.source := by
  rw [loadInclude, hfile]
  dsimp only
  rw [hdoc]

/-- The name of a scheme has no slash. -/
theorem slash_nameOf (p : Path) : '/' ∉ (nameOf p).toList := by
  rw [nameOf, String.toList_ofList]
  intro hmem
  have hmem := (List.takeWhile_subset _) hmem
  cases h : p.fileName?.bind RawText.text? with
  | none => rw [h] at hmem; cases hmem
  | some s =>
    obtain ⟨name, hname, htext⟩ := Option.bind_eq_some_iff.mp h
    obtain rfl := RawText.text?_eq_some_iff.mp htext
    rw [h] at hmem
    exact Path.slash_fileName? hname (Path.slash_mem_ofText_iff.mpr hmem)

/-- Nor has it a dot, since the name of its file is cut there. -/
theorem dot_nameOf (p : Path) : '.' ∉ (nameOf p).toList := by
  rw [nameOf, String.toList_ofList]
  intro hmem
  have hne := List.mem_takeWhile_imp hmem
  simp at hne

/--
**Included documents bring all their keywords.** Whatever is in the directories, a document that the
include list names and that is found has all its keywords among those of the scheme, unless the
scheme itself goes by that name.
-/
theorem includes_bring_keywords {shared : Option Path} {n : String} {file : Path} {doc : Scheme}
    (hload : load fs path = .ok scheme) (hn : n ∈ scheme.includes) (hname : n ≠ nameOf path)
    (hfile : ((scheme.directory :: shared.toList).map (includeFile · n)).find? fs.isFile
      = some file) (hdoc : load fs file = .ok doc) :
    ∀ k ∈ doc.keywords.names, k ∈ (scheme.allKeywords fs shared).names := by
  intro k hk
  rw [← name_of_load hload] at hname
  have hvisited : n ∈ (scheme.source.withIncludes (fs.loader (scheme.directory :: shared.toList))
      scheme.name).loads := by
    rw [withIncludes_loads]
    exact mem_visitAll_of_mem hn (fun hmem => hname (List.mem_singleton.mp hmem))
  exact mem_names_withIncludes.mpr
    (Or.inr ⟨n, hvisited, doc.source, loadInclude_of_load hfile hdoc, hk⟩)

/-- The scheme `demo`, and two schemes that include it. -/
def demoSchemes : FileSystem where
  nodes := [
    (["demo.json"], .file "\x7b\"keywords\": \x7b\"b\": \"green\"\x7d\x7d".toUTF8),
    (["all.json"], .file "\x7b\"include\": [\"demo\"]\x7d".toUTF8),
    (["demo.more.json"], .file
      "\x7b\"keywords\": \x7b\"a\": \"red\"\x7d, \"include\": [\"demo\"]\x7d".toUTF8)]

theorem load_demo : load demoSchemes ⟨"demo.json"⟩
    = .ok { name := "demo", keywords := [("b", .colour (.literal "green"))] } := by
  have hparse : parse "\x7b\"keywords\": \x7b\"b\": \"green\"\x7d\x7d"
      = .ok { keywords := [("b", .colour (.literal "green"))] } := by rfl
  exact load_of_read (by rfl) hparse

/-- The scheme `all` includes `demo` and has its keyword. -/
theorem includes_bring_keywords_of_demo :
    ∃ scheme, load demoSchemes ⟨"all.json"⟩ = .ok scheme ∧
      "b" ∈ (scheme.allKeywords demoSchemes none).names := by
  have hparse : parse "\x7b\"include\": [\"demo\"]\x7d" = .ok { includes := ["demo"] } := by rfl
  have hall : load demoSchemes ⟨"all.json"⟩ = .ok { name := "all", includes := ["demo"] } :=
    load_of_read (by rfl) hparse
  exact ⟨_, hall, includes_bring_keywords hall List.mem_cons_self (by decide) (by rfl) load_demo
    "b" List.mem_cons_self⟩

/-- The scheme in `demo.more.json` goes by the name `demo`, and does not get what it includes. -/
theorem own_name_hides_include :
    ∃ scheme doc, load demoSchemes ⟨"demo.more.json"⟩ = .ok scheme ∧ "demo" ∈ scheme.includes ∧
      ((scheme.directory :: (none : Option Path).toList).map (includeFile · "demo")).find?
        demoSchemes.isFile = some ⟨"demo.json"⟩ ∧
      load demoSchemes ⟨"demo.json"⟩ = .ok doc ∧ "b" ∈ doc.keywords.names ∧
      "b" ∉ (scheme.allKeywords demoSchemes none).names := by
  have hparse : parse
      "\x7b\"keywords\": \x7b\"a\": \"red\"\x7d, \"include\": [\"demo\"]\x7d"
      = .ok { keywords := [("a", .colour (.literal "red"))], includes := ["demo"] } := by rfl
  have hmore : load demoSchemes ⟨"demo.more.json"⟩ = .ok
      { name := "demo", keywords := [("a", .colour (.literal "red"))], includes := ["demo"] } :=
    load_of_read (by rfl) hparse
  refine ⟨_, _, hmore, List.mem_cons_self, by rfl, load_demo, List.mem_cons_self, ?_⟩
  have hnone : ∀ l, visitAll l ["demo"] ["demo"] = [] := fun l => by
    rw [visitAll_cons_of_mem List.mem_cons_self, visitAll_nil]
  rw [allKeywords, mem_names_withIncludes, withIncludes_loads]
  simp [source, hnone, Table.names]

end Scheme

end Highlight
