import Highlight.FileSystem.Operations
import Highlight.Scheme.Include
import Highlight.Scheme.Reader

/-!
# Schemes on disk

A scheme is read from a file and named after it. The documents it includes are looked for in its
own directory and then in a shared one, where a name stands for the file with that name and the
ending `.json`. The first such file counts, even if it turns out not to be a scheme.
-/

namespace Highlight

/-- How causes outside this library are told. -/
structure Wording where
  file : FileError → String
  json : Json.Failure → String

/-- What is told about a text that is no document. -/
def Json.Failure.message : Json.Failure → String
  | cutShort => "the text ends too early"
  | illFormed => "the text is no JSON document"
  | illTyped => "a value has the wrong type"

/-- The words of the operating system for its errors. -/
def Wording.plain : Wording := ⟨FileError.message, Json.Failure.message⟩

namespace Scheme

/-- Why a scheme was not loaded. -/
inductive LoadError where
  | unreadable (path : Path) (cause : FileError)
  | malformed (path : Path) (cause : Json.Failure)
  deriving DecidableEq

/-- The file that was not loaded. -/
def LoadError.path : LoadError → Path
  | unreadable path _ => path
  | malformed path _ => path

/-- What is told about a scheme that was not loaded. -/
def LoadError.message (w : Wording) : LoadError → String
  | unreadable path cause => "cannot read " ++ path.text ++ ": " ++ w.file cause
  | malformed path cause => path.text ++ " is not a valid scheme: " ++ w.json cause

/-- A scheme with the name and the directory that its file gives it. -/
def placed (scheme : Scheme) (path : Path) : Scheme :=
  { scheme with name := nameOf path, directory := path.parent?.getD ⟨""⟩ }

/-- Where a scheme stands does not matter for what it contributes. -/
theorem source_placed (scheme : Scheme) (path : Path) :
    (scheme.placed path).source = scheme.source := by
  simp only [source, placed]

/-- The scheme in a file. -/
def load (fs : FileSystem) (path : Path) : Except LoadError Scheme :=
  match fs.readText path with
  | .error cause => .error (.unreadable path cause)
  | .ok text =>
    match parse text with
    | .error cause => .error (.malformed path cause)
    | .ok scheme => .ok (scheme.placed path)

/-- A scheme that is loaded is what the text of its file stands for. -/
theorem exists_of_load {fs : FileSystem} {path : Path} {scheme : Scheme}
    (h : load fs path = .ok scheme) :
    ∃ text parsed, fs.readText path = .ok text ∧ parse text = .ok parsed ∧
      parsed.placed path = scheme := by
  rw [load] at h
  split at h
  · cases h
  · next text ht =>
    split at h
    · cases h
    · next parsed hp => exact ⟨text, parsed, ht, hp, Except.ok.inj h⟩

/-- The file of an included document called `name` in a directory. -/
def includeFile (directory : Path) (name : String) : Path := directory.join ⟨name ++ ".json"⟩

/-- The first of the directories that has a file for `name` decides which document that is. -/
def loadInclude (fs : FileSystem) (directories : List Path) (name : String) : Option Source :=
  match (directories.map (includeFile · name)).find? fs.isFile with
  | none => none
  | some path =>
    match load fs path with
    | .error _ => none
    | .ok scheme => some scheme.source

end Scheme

namespace FileSystem

/-- What a node contributes when it is included, whatever its name: a file that holds a scheme. -/
def sourceOf? (node : Node) : Option Source :=
  match node with
  | .file content =>
    match String.fromUTF8? content with
    | none => none
    | some text =>
      match Scheme.parse text with
      | .error _ => none
      | .ok scheme => some scheme.source
  | _ => none

/-- A text that is read stands in some file. -/
theorem exists_of_readText {fs : FileSystem} {path : Path} {text : String}
    (h : fs.readText path = .ok text) :
    ∃ location content, (location, .file content) ∈ fs.nodes ∧
      String.fromUTF8? content = some text := by
  rw [readText] at h
  split at h
  · cases h
  · next content hr =>
    obtain ⟨location, hmem⟩ := exists_of_read hr
    split at h
    · next ht =>
      cases h
      exact ⟨location, content, hmem, ht⟩
    · cases h

/-- An included document stands in some file. -/
theorem exists_of_loadInclude {fs : FileSystem} {directories : List Path} {name : String}
    {doc : Source} (h : Scheme.loadInclude fs directories name = some doc) :
    ∃ e ∈ fs.nodes, sourceOf? e.2 = some doc := by
  rw [Scheme.loadInclude] at h
  split at h
  · cases h
  · split at h
    · cases h
    · next hload =>
      obtain ⟨text, parsed, ht, hp, rfl⟩ := Scheme.exists_of_load hload
      obtain ⟨location, content, hmem, hc⟩ := exists_of_readText ht
      refine ⟨_, hmem, ?_⟩
      rw [Scheme.source_placed] at h
      simp only [sourceOf?, hc, hp]
      exact h

/-- The documents in a list of directories, the earlier directories first. -/
def loader (fs : FileSystem) (directories : List Path) : Loader where
  load := Scheme.loadInclude fs directories
  finite := by
    refine ⟨fs.nodes.flatMap fun e => ((sourceOf? e.2).map (·.includes)).getD [],
      fun name doc h n hn => ?_⟩
    obtain ⟨e, he, hs⟩ := exists_of_loadInclude h
    exact List.mem_flatMap.mpr ⟨e, he, by simpa [hs] using hn⟩

end FileSystem

/-- All keywords of a scheme, with those of the documents it includes. -/
def Scheme.allKeywords (s : Scheme) (fs : FileSystem) (shared : Option Path) : Keywords :=
  (s.source.withIncludes (fs.loader (s.directory :: shared.toList)) s.name).keywords

end Highlight
