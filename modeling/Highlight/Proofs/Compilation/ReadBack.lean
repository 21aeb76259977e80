import Highlight.Proofs.Compilation.Order
import Highlight.Proofs.Scheme.Reader
import Highlight.Proofs.SyntaxFiles.Nesting
import Highlight.Proofs.SyntaxFiles.ReadBack

/-!
# What was written can be read back

All that a compilation puts into its documents was read within the depth of the reader, and goes no
deeper in them than it was. So each of its files is read as the document that was made, and can be
extended or serve as base theme itself (`written_files_read_back`).

Only the references to the rules are containers of their own making. They may go one deeper than the
reader does, where a scope leads to a rule list at the very bottom: then the grammar is written, but
no later compilation can read it (`deep_grammar_not_read_back`).
-/

namespace Highlight.Compilation

open FileSystem
open Json (Legible Within maxDepth)
open SyntaxFiles (Kind BaseColours Targets baseTargets documentAt fileContent reference definition)

variable {fs fs' : FileSystem} {setup : Setup} {fresh : Fresh} {path : Path} {scheme : Scheme}
  {files : SyntaxFiles}

/-! ## What compilations make -/

/-- The colours of a base theme leave four containers of the depth to others. -/
theorem each_chosenBase? {base : BaseColours} (h : chosenBase? fs setup = some base) :
    base.Each (Within (maxDepth - 4)) := by
  rw [chosenBase?] at h
  split at h
  · cases h
  · split at h
    · cases h
    · next htheme => exact SyntaxFiles.each_ofTheme? (SyntaxFiles.within_documentAt htheme) h

theorem within_settings_of_load (h : Scheme.load fs path = .ok scheme) :
    scheme.settings.Each (Within (maxDepth - 2)) := by
  obtain ⟨_, _, _, hparse, rfl⟩ := Scheme.exists_of_load h
  dsimp only [Scheme.placed]
  exact Scheme.within_settings_of_parse hparse

theorem within_filesOf (hload : Scheme.load fs path = .ok scheme)
    (hfiles : filesOf fs setup fresh scheme = .ok files) (kind : Kind) :
    Within (maxDepth + 1) (files.get kind) ∧
      (Within maxDepth (files.get kind) ∨ kind = .grammar ∧ rulesOf fs setup fresh scheme ≠ [] ∧
        ∃ d, scheme.derivation = some d ∧ (Json.route d.scope).length = maxDepth - 2) := by
  rw [filesOf] at hfiles
  refine SyntaxFiles.within_build (within_settings_of_load hload) (fun base hbase => ?_) hfiles kind
  split at hbase
  · cases hbase
  · exact each_chosenBase? hbase

/-! ## Reading it back -/

/--
**What a compilation writes can be read back.** Let a compilation go well, and let no link stand
where it has written. As far as numbers that are no integers are read back from their own texts,
each file is read as the document that was made for it. The one exception is a grammar that got
rules at a scope so deep that no container may stand in its rule list. It nests one container deeper
than any document that can be read, and its file is refused.
-/
theorem written_files_read_back {done : Done} (hg : fs.Grounded)
    (h : compile fs setup fresh path = (.ok done, fs'))
    (hlinks : ∀ q ∈ done.written, fs'.isLink q = false) : ∃ scheme files,
      Scheme.load fs (schemePath fs path) = .ok scheme ∧
      filesOf fs setup fresh scheme = .ok files ∧
      done.written = Kind.all.map (·.file setup.outputDirectory scheme.name) ∧
      ∀ kind, (∀ x ∈ (files.get kind).reals, Legible (.real x)) →
        documentAt fs' (kind.file setup.outputDirectory scheme.name) = .ok (files.get kind) ∨
          (kind = .grammar ∧ rulesOf fs setup fresh scheme ≠ [] ∧
            (∃ d, scheme.derivation = some d ∧ (Json.route d.scope).length = maxDepth - 2) ∧
            (files.get kind).nesting = maxDepth + 1 ∧
            ∃ cause, documentAt fs' (kind.file setup.outputDirectory scheme.name)
              = .error (.targetMalformed (kind.file setup.outputDirectory scheme.name) cause)) := by
  -- what was written are the three documents of the scheme
  obtain ⟨scheme, files, hload, hfiles, _, hstore⟩ := exists_store_of_compile_ok h
  have hwritten := (SyntaxFiles.store_ok hstore).1
  have hslash : '/' ∉ scheme.name.toList := by
    rw [Scheme.name_of_load hload]
    exact Scheme.slash_nameOf _
  have hunlinked : ∀ kind : Kind,
      fs'.isLink (kind.file setup.outputDirectory scheme.name) = false := by
    intro kind
    refine hlinks _ ?_
    rw [hwritten]
    exact List.mem_map_of_mem kind.mem_all
  refine ⟨scheme, files, hload, hfiles, hwritten, fun kind hreals => ?_⟩
  obtain ⟨hdeeper, hsame⟩ := within_filesOf hload hfiles kind
  rcases SyntaxFiles.documentAt_of_store hg hslash hstore hunlinked hdeeper hreals with
    hread | ⟨hlt, hrefused⟩
  · exact Or.inl hread
  · -- a document that was refused is too deep, which only a grammar with rules can be
    rcases hsame with hsame | ⟨hkind, hrules, hscope⟩
    · exact absurd hsame.nesting_le (Nat.not_le_of_lt hlt)
    · exact Or.inr ⟨hkind, hrules, hscope, Nat.le_antisymm hdeeper.nesting_le hlt, hrefused⟩

/-- What is made of a keyword and one more that is included is read back. -/
theorem written_files_read_back_of_included_keyword :
    (compile twoSchemes atOut (Fresh.ofSeed []) ⟨"/work/small.json"⟩).1
        = .ok ⟨"small", .new, 2, destinations atOut "small"⟩ ∧
      ∀ kind : Kind,
        documentAt (compile twoSchemes atOut (Fresh.ofSeed []) ⟨"/work/small.json"⟩).2
            (kind.file atOut.outputDirectory "small")
          = .ok ((SyntaxFiles.ofRules smallScheme smallRules atOut.outputDirectory none
              (Fresh.ofSeed []).ids).get kind) := by
  obtain ⟨_, hmade⟩ := filesOf_smallScheme (Fresh.ofSeed [])
  obtain ⟨fs', hcompile, hwritten⟩ := exists_compile_smallScheme
  have hlinks : ∀ q ∈ destinations atOut "small", fs'.isLink q = false := fun q _ =>
    isLink_of_filesWritten hwritten (isLink_of_no_links noLinks_twoSchemes q)
  obtain ⟨scheme, files, hload, hfiles, _, hread⟩ :=
    written_files_read_back grounded_twoSchemes hcompile hlinks
  obtain rfl := Except.ok.inj (load_smallScheme.symm.trans hload)
  obtain rfl := Except.ok.inj (hmade.symm.trans hfiles)
  refine ⟨congrArg Prod.fst hcompile, fun kind => ?_⟩
  have hreals : ((SyntaxFiles.ofRules smallScheme smallRules atOut.outputDirectory none
      (Fresh.ofSeed []).ids).get kind).reals = [] := by
    cases kind <;> rfl
  rw [hcompile]
  rcases hread kind (by rw [hreals]; simp) with hread | ⟨_, _, ⟨_, hnone, _⟩, _⟩
  · exact hread
  · -- it extends nothing, so there is no scope that could be too deep
    cases hnone

/-! ## A rule list at the bottom -/

/-- A list of rules below `n` members. -/
def buried (rules : List Json) : (n : Nat) → Json
  | 0 => .object [("patterns", .array rules)]
  | n + 1 => .object [("a", buried rules n)]

theorem nesting_buried_le_iff {rules : List Json} {n : Nat} :
    (buried rules n).nesting ≤ n + 2 ↔ ∀ rule ∈ rules, rule.nesting ≤ 0 := by
  induction n with
  | zero => rw [buried, Json.nesting_object_le_iff, List.forall_mem_singleton,
      Json.nesting_array_le_iff]
  | succ n ih => rw [buried, Json.nesting_object_le_iff, List.forall_mem_singleton, ih]

theorem within_buried (n : Nat) : Within (n + 2) (buried [] n) := by
  induction n with
  | zero =>
    have hlist : Within 1 (.array []) := .array (List.forall_mem_nil _)
    exact .object (List.nodup_singleton _) (List.forall_mem_singleton.mpr hlist)
  | succ n ih => exact .object (List.nodup_singleton _) (List.forall_mem_singleton.mpr ih)

theorem reals_buried {rules : List Json} (h : (Json.array rules).reals = []) (n : Nat) :
    (buried rules n).reals = [] := by
  induction n with
  | zero => simpa [buried, Json.reals, Json.realsOfMembers] using h
  | succ n ih => simpa [buried, Json.reals, Json.realsOfMembers] using ih

theorem walk_buried (rules : List Json) (n : Nat) :
    Json.walk (buried rules n) (List.replicate n "a") = .ok (buried rules 0) := by
  induction n with
  | zero => rfl
  | succ n ih => exact ih

theorem walkModify_buried (rules : List Json) (n : Nat) :
    Json.walkModify (fun node => SyntaxFiles.setMember node "patterns" (.array rules)) (buried [] n)
      (List.replicate n "a") = .ok (buried rules n) := by
  induction n with
  | zero => rfl
  | succ n ih =>
    have hchild : (buried [] (n + 1)).child? "a" = some (buried [] n) := by rfl
    rw [List.replicate_succ, Json.walkModify_cons hchild, ih]
    rfl

/-- The letters of the path down 125 members. -/
def deepLetters : List Char := (List.replicate 125 'a').intersperse '.'

/-- The path down 125 members. -/
def deepScope : String := String.ofList deepLetters

theorem route_deepScope : Json.route deepScope = List.replicate 125 "a" := by
  have hsplit : Json.splitDots deepLetters = List.replicate 125 ['a'] := by decide +kernel
  rw [Json.route, deepScope, String.toList_ofList, hsplit, List.filter_eq_self.mpr (by simp),
    List.map_replicate]

/-- A document in a grammar that was renamed. -/
def renamedAround (doc : Json) : Json :=
  .object [("a", doc), ("name", .string "mine"), ("scopeName", .string "source.mine")]

/-- What becomes of a grammar that is extended there. -/
def deepGrammar (rules : List Rule) : Json :=
  .object [("a", buried (rules.map reference) 124), ("name", .string "mine"),
    ("scopeName", .string "source.mine"),
    ("repository", .object (Table.putAll [] (rules.map (definition "mine"))))]

theorem extendGrammar_buried (rules : List Rule) :
    SyntaxFiles.extendGrammar (buried [] 125) "mine" deepScope rules
      = .ok (deepGrammar rules) := by
  have hchild : (renamedAround (buried [] 124)).child? "a" = some (buried [] 124) := by rfl
  have hroute : Json.route deepScope = "a" :: List.replicate 124 "a" := route_deepScope
  have hfollow : (renamedAround (buried [] 124)).follow deepScope = .ok (buried [] 0) := by
    rw [Json.follow, hroute, Json.walk, hchild]
    -- down the members to the rule list, which is still empty
    dsimp only
    rw [walk_buried]
    rfl
  have hmodify : (renamedAround (buried [] 124)).modify deepScope
        (fun node => SyntaxFiles.setMember node "patterns" (.array ([] ++ rules.map reference)))
      -- and down them once more to put the references there
      = .ok (renamedAround (buried (rules.map reference) 124)) := by
    rw [Json.modify, hroute, Json.walkModify_cons hchild, List.nil_append, walkModify_buried]
    rfl
  have hreferences : SyntaxFiles.addReferences (renamedAround (buried [] 124)) deepScope
      (rules.map reference) = _ := bind_ok hfollow hmodify
  exact bind_ok hreferences rfl

/-- A scheme with one keyword, up to the path of the scope that it extends a grammar at. -/
def deepFront : List Char :=
  "\x7b\"keywords\": \x7b\"x\": \x7b\x7d\x7d, \"deriving\": \x7b\"grammar\": \"base\", ".toList
    ++ "\"theme\": \"base\", \"settings\": \"base\", \"scope\": \"".toList

/-- The whole of it. -/
def deepText : String := String.ofList (deepFront ++ deepLetters ++ ['"', '\x7d', '\x7d'])

/-- What is read of it. -/
def deepScheme : Scheme where
  name := "mine"
  directory := ⟨"/work"⟩
  keywords := [("x", .full {})]
  derivation := some ⟨"base", "base", "base", deepScope⟩

set_option maxRecDepth 4000 in
theorem parse_deepText : Scheme.parse deepText = .ok
    { keywords := [("x", .full {})], derivation := some ⟨"base", "base", "base", deepScope⟩ } := by
  rw [Scheme.parse, Json.whole, deepText, String.toList_ofList]
  rfl

/-- The rule of its keyword. -/
def deepRule : Rule where
  keyword := "x"
  pattern := Pattern.ofKeyword "x" false false
  identifier := Rule.identifierOf "x" 0

/-- A grammar with a rule list at the bottom, and the scheme that extends it there. -/
def deepTarget : FileSystem where
  nodes := [(["out"], .directory), (["work"], .directory),
    (["base.tmLanguage.json", "work"], .file (fileContent (buried [] 125))),
    (["base.tmTheme.json", "work"], .file "\x7b\x7d".toUTF8),
    (["base.sublime-settings", "work"], .file "\x7b\x7d".toUTF8),
    (["mine.json", "work"], .file deepText.toUTF8)]

/-- What is made of them. -/
def deepFiles : SyntaxFiles where
  grammar := deepGrammar [deepRule]
  theme := SyntaxFiles.extendTheme (.object []) "mine" [deepRule]
  settings := SyntaxFiles.extendSettings (.object []) [] "/out/mine.tmTheme.json"

theorem load_deepScheme :
    Scheme.load deepTarget (schemePath deepTarget ⟨"/work/mine.json"⟩) = .ok deepScheme := by
  have hpath : schemePath deepTarget ⟨"/work/mine.json"⟩ = ⟨"/work/mine.json"⟩ := by rfl
  have hread : deepTarget.read ⟨"/work/mine.json"⟩ = .ok deepText.toUTF8 := by rfl
  rw [hpath, Scheme.load_of_read hread parse_deepText]
  rfl

theorem filesOf_deepScheme :
    filesOf deepTarget atOut (Fresh.ofSeed []) deepScheme = .ok deepFiles := by
  -- it includes nothing
  have hkeywords : deepScheme.allKeywords deepTarget (some atOut.includeDirectory)
      = [("x", .full {})] := by
    rw [Scheme.allKeywords, withIncludes_keywords, withIncludes_loads]
    simp [Scheme.source, deepScheme, visitAll_nil]
  have hrules : rulesOf deepTarget atOut (Fresh.ofSeed []) deepScheme = [deepRule] := by
    rw [rulesOf, hkeywords]
    rfl
  have hempty : Json.read "\x7b\x7d" = .ok (.object []) := by rfl
  have hgrammar : Json.read ((buried [] 125).pretty ++ "\n") = .ok (buried [] 125) := by
    have hwithin : Within maxDepth (buried [] 125) := within_buried 125
    refine Json.read_pretty hwithin ?_ hwithin.nesting_le
    rw [reals_buried (by rfl)]
    exact List.forall_mem_nil _
  have hfind : Targets.find deepTarget [⟨"/work"⟩, ⟨"/out"⟩] ⟨"base", "base", "base", deepScope⟩
      = .ok baseTargets := by rfl
  have hcheck : baseTargets.check deepTarget ⟨"/out"⟩ "mine" = .ok () := by rfl
  rw [filesOf, hrules]
  -- the three documents are found, read and extended
  exact SyntaxFiles.extending_ok_iff.mpr ⟨baseTargets, _, _, _, hfind, hcheck,
    SyntaxFiles.documentAt_of_read (by rfl) hgrammar,
    SyntaxFiles.documentAt_of_read (by rfl) hempty, SyntaxFiles.documentAt_of_read (by rfl) hempty,
    extendGrammar_buried _, rfl, by rfl⟩

theorem reals_deepFiles (kind : Kind) : (deepFiles.get kind).reals = [] := by
  cases kind with
  | grammar =>
    have hlist : (Json.array [reference deepRule]).reals = [] := by rfl
    have hsplit : (deepGrammar [deepRule]).reals
        = (buried [reference deepRule] 124).reals ++ [] := by rfl
    rw [SyntaxFiles.get, deepFiles, hsplit, reals_buried hlist]
    rfl
  | theme => rfl
  | settings => rfl

/-- A grammar that gets a rule at its very bottom is written, and cannot be read. -/
theorem deep_grammar_not_read_back : ∃ done fs' scheme files,
    deepTarget.Grounded ∧
      compile deepTarget atOut (Fresh.ofSeed []) ⟨"/work/mine.json"⟩ = (.ok done, fs') ∧
      (∀ q ∈ done.written, fs'.isLink q = false) ∧
      Scheme.load deepTarget (schemePath deepTarget ⟨"/work/mine.json"⟩) = .ok scheme ∧
      filesOf deepTarget atOut (Fresh.ofSeed []) scheme = .ok files ∧
      (∀ kind, (files.get kind).reals = []) ∧
      documentAt fs' (Kind.grammar.file atOut.outputDirectory scheme.name)
        ≠ .ok (files.get .grammar) := by
  have hg : deepTarget.Grounded := by
    refine grounded_of_nodes rfl ?_
    simp only [deepTarget, List.forall_mem_cons]
    exact ⟨rfl, rfl, rfl, rfl, rfl, rfl, fun e he => by cases he⟩
  obtain ⟨fs', hcompile, _, hwritten⟩ :=
    compile_ok_of_write atOut (Fresh.ofSeed []) hg (by rfl) load_deepScheme filesOf_deepScheme
      (fun kind => by cases kind <;> exact ⟨_, rfl⟩)
  refine ⟨_, fs', deepScheme, deepFiles, hg, hcompile, fun q hq => ?_, load_deepScheme,
    filesOf_deepScheme, reals_deepFiles, fun hread => ?_⟩
  · -- the files that were written are no links
    refine isLink_of_filesWritten hwritten (isLink_of_no_links (fun l t h => ?_) q)
    have hmem := mem_of_node? h (by simp)
    simp [deepTarget] at hmem
  · -- a reference nests, but where it stands nothing may
    have hnesting : (deepGrammar [deepRule]).nesting ≤ 127 :=
      (SyntaxFiles.within_documentAt hread).nesting_le
    have hmembers := Json.nesting_object_le_iff.mp hnesting
    have hburied : (buried [reference deepRule] 124).nesting ≤ 124 + 2 :=
      hmembers _ List.mem_cons_self
    have hreference := nesting_buried_le_iff.mp hburied _ List.mem_cons_self
    exact absurd hreference (by decide)

end Highlight.Compilation
