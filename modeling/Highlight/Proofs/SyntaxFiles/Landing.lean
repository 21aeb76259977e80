import Highlight.Proofs.FileSystem.Places
import Highlight.Proofs.SyntaxFiles.Store
import Highlight.SyntaxFiles.Extended

/-!
# Storing syntax files at known places

Once it is known how each of the three paths lands, storing is a list of nodes that are set, and
what is told of it does not depend on the documents at all (`writeKinds_of_lands`). Storing that
succeeds shows how the paths land, for itself and for every run after it (`lands_of_writeKinds`).

Each new grammar and theme has an identifier of its own. `SameButIds` is what two file systems have
in common that hold the same documents otherwise. It is kept by storing the same documents in both,
and it holds at every place that both runs have stored to (`sameButIds_setDocuments`).
-/

namespace Highlight.SyntaxFiles

open FileSystem

variable {files files' : SyntaxFiles} {directory : Path} {name : String} {kinds : List Kind}
  {fs fs' : FileSystem} {m : Location}

/-! ## What is set, and what is told -/

/-- The kinds before the first that cannot be written, each with its place. -/
def reached (r : Kind → Except FileError Location) : List Kind → List (Kind × Location)
  | [] => []
  | kind :: kinds =>
    match r kind with
    | .error _ => []
    | .ok l => (kind, l) :: reached r kinds

/-- The paths of the kinds, or the error of the first that cannot be written. -/
def verdict (directory : Path) (name : String) (r : Kind → Except FileError Location) :
    List Kind → Except Error (List Path)
  | [] => .ok []
  | kind :: kinds =>
    match r kind with
    | .error e => .error (.file (kind.file directory name) e)
    | .ok _ => (verdict directory name r kinds).map (kind.file directory name :: ·)

/-- The documents of the kinds at the given places, one after another. -/
def setDocuments (files : SyntaxFiles) : List (Kind × Location) → FileSystem → FileSystem
  | [], fs => fs
  | (kind, l) :: rest, fs =>
    setDocuments files rest (fs.set l (.file (fileContent (files.get kind))))

theorem cwd_setDocuments (files : SyntaxFiles) (ps : List (Kind × Location)) (fs : FileSystem) :
    (setDocuments files ps fs).cwd = fs.cwd := by
  induction ps generalizing fs with
  | nil => rfl
  | cons e ps ih => exact ih _

/-- At each location it is the last document that counts, if there is one. -/
theorem setDocuments_cases {ps : List (Kind × Location)} (hroot : ∀ e ∈ ps, e.2 ≠ [])
    (m : Location) :
    (m ∉ ps.map Prod.snd ∧
      ∀ files fs, (setDocuments files ps fs).node? m = fs.node? m) ∨
    ∃ kind, (kind, m) ∈ ps ∧ ∀ files fs, (setDocuments files ps fs).node? m
      = some (.file (fileContent (files.get kind))) := by
  induction ps with
  | nil => exact Or.inl ⟨List.not_mem_nil, fun _ _ => rfl⟩
  | cons e ps ih =>
    obtain ⟨kind, l⟩ := e
    have hl : l ≠ [] := hroot _ List.mem_cons_self
    rcases ih fun e he => hroot e (List.mem_cons_of_mem _ he) with
      ⟨hm, hnode⟩ | ⟨kind', hmem, hnode⟩
    · -- no later document lands there, so it is this one or none
      by_cases hlm : l = m
      · subst hlm
        refine Or.inr ⟨kind, List.mem_cons_self, fun files fs => ?_⟩
        rw [setDocuments, hnode, node?_set_self hl]
      · refine Or.inl ⟨?_, fun files fs => ?_⟩
        · rw [List.map_cons, List.mem_cons, not_or]
          exact ⟨Ne.symm hlm, hm⟩
        · rw [setDocuments, hnode, node?_set_ne hl _ hlm]
    · -- a later document lands there, and is not replaced
      exact Or.inr ⟨kind', List.mem_cons_of_mem _ hmem, fun files fs => hnode files _⟩

/-- Nothing is set elsewhere. -/
theorem node?_setDocuments (files : SyntaxFiles) {ps : List (Kind × Location)}
    (hroot : ∀ e ∈ ps, e.2 ≠ []) (hm : m ∉ ps.map Prod.snd) :
    (setDocuments files ps fs).node? m = fs.node? m := by
  rcases setDocuments_cases hroot m with ⟨_, hnode⟩ | ⟨kind, hmem, _⟩
  · exact hnode files fs
  · exact absurd (List.mem_map_of_mem hmem) hm

/-- What is set does not depend on what stood there. -/
theorem node?_setDocuments_congr (files : SyntaxFiles) {ps : List (Kind × Location)}
    (hroot : ∀ e ∈ ps, e.2 ≠ []) (h : m ∉ ps.map Prod.snd → fs'.node? m = fs.node? m) :
    (setDocuments files ps fs').node? m = (setDocuments files ps fs).node? m := by
  rcases setDocuments_cases hroot m with ⟨hm, hnode⟩ | ⟨kind, _, hnode⟩
  · rw [hnode, hnode, h hm]
  · rw [hnode, hnode]

/-- **Storing does what the paths say, whatever the documents are.** -/
theorem writeKinds_of_lands {r : Kind → Except FileError Location} (files : SyntaxFiles)
    (h : ∀ kind ∈ kinds, Lands fs (kind.file directory name) (r kind)) :
    files.writeKinds directory name kinds fs
        = (verdict directory name r kinds, setDocuments files (reached r kinds) fs) ∧
      FilesWritten fs (setDocuments files (reached r kinds) fs) ∧
      ∀ e ∈ reached r kinds, e.1 ∈ kinds ∧ r e.1 = .ok e.2 ∧ e.2 ≠ [] := by
  induction kinds generalizing fs with
  | nil => exact ⟨rfl, .refl fs, by simp [reached]⟩
  | cons kind kinds ih =>
    have hkind := h kind List.mem_cons_self
    have hwrite := hkind.write fs (.refl fs) (fileContent (files.get kind))
    cases hr : r kind with
    | error e =>
      -- the first failure ends it, and nothing of this kind was written
      rw [hr] at hwrite
      simp only [reached, verdict, hr]
      exact ⟨writeKinds_cons_of_error hwrite, .refl fs, by simp⟩
    | ok l =>
      rw [hr] at hwrite hkind
      -- a write moves no path, so that the others land where they would have
      have hset := hkind.filesWritten (fileContent (files.get kind))
      have hlater : ∀ kind' ∈ kinds, Lands (fs.set l (.file (fileContent (files.get kind))))
          (kind'.file directory name) (r kind') :=
        fun kind' hmem => (h kind' (List.mem_cons_of_mem _ hmem)).of_filesWritten hset
      obtain ⟨hrest, hwritten, hreached⟩ := ih hlater
      simp only [reached, verdict, hr, setDocuments]
      refine ⟨?_, hset.trans hwritten, ?_⟩
      · rw [writeKinds_cons_of_ok hwrite, hrest]
      · refine List.forall_mem_cons.mpr ⟨⟨List.mem_cons_self, hr, hkind.ne_root⟩, fun e he => ?_⟩
        obtain ⟨hmem, hrest⟩ := hreached e he
        exact ⟨List.mem_cons_of_mem _ hmem, hrest⟩

theorem verdict_of_ok (directory : Path) (name : String) (place : Kind → Location)
    (kinds : List Kind) : verdict directory name (fun kind => .ok (place kind)) kinds
      = .ok (kinds.map (·.file directory name)) := by
  induction kinds with
  | nil => rfl
  | cons kind kinds ih =>
    rw [verdict, ih]
    rfl

/-- Files that could each be written alone are all written. -/
theorem writeKinds_ok_of_write (files : SyntaxFiles)
    (h : ∀ kind ∈ kinds, ∃ fs', fs.write (kind.file directory name) .empty = .ok fs') :
    (files.writeKinds directory name kinds fs).1 = .ok (kinds.map (·.file directory name)) := by
  have hlands : ∀ kind ∈ kinds, Lands fs (kind.file directory name)
      (.ok ((fs.place? (kind.file directory name)).getD [])) := by
    intro kind hkind
    obtain ⟨_, hwrite⟩ := h kind hkind
    obtain ⟨l, hl, hplace, _⟩ := lands_of_write hwrite
    rw [hplace]
    exact hl
  rw [(writeKinds_of_lands files hlands).1, verdict_of_ok]

/-- Storing that succeeds once succeeds again, and to the same places. -/
theorem lands_of_writeKinds {written : List Path}
    (h : files.writeKinds directory name kinds fs = (.ok written, fs')) :
    ∃ place : Kind → Location, FilesWritten fs fs' ∧
      (∀ kind ∈ kinds, Lands fs' (kind.file directory name) (.ok (place kind)) ∧
        fs.place? (kind.file directory name) = some (place kind)) ∧
      fs' = setDocuments files (reached (fun kind => .ok (place kind)) kinds) fs ∧
      verdict directory name (fun kind => .ok (place kind)) kinds = .ok written := by
  -- the places are those of the paths, which no write moves
  refine ⟨fun kind => (fs.place? (kind.file directory name)).getD [], ?_⟩
  induction kinds generalizing fs written with
  | nil =>
    cases h
    exact ⟨.refl _, by simp, rfl, rfl⟩
  | cons kind kinds ih =>
    obtain ⟨next, paths, hwrite, hrest, rfl⟩ := writeKinds_cons_ok h
    obtain ⟨l, hlands, hplace, rfl⟩ := lands_of_write hwrite
    have hset := hlands.filesWritten (fileContent (files.get kind))
    obtain ⟨hwritten, hall, heq, hverdict⟩ := ih hrest
    simp only [place?_of_filesWritten hset] at hall heq hverdict
    refine ⟨hset.trans hwritten, List.forall_mem_cons.mpr ⟨?_, hall⟩, ?_, ?_⟩
    · dsimp only
      rw [hplace]
      exact ⟨hlands.of_filesWritten (hset.trans hwritten), rfl⟩
    · simp only [reached, hplace, Option.getD_some, setDocuments]
      exact heq
    · rw [verdict, hverdict]
      rfl

theorem reached_of_ok (place : Kind → Location) (kinds : List Kind) :
    reached (fun kind => .ok (place kind)) kinds = kinds.map fun kind => (kind, place kind) := by
  induction kinds with
  | nil => rfl
  | cons kind kinds ih => rw [reached, ih, List.map_cons]

/-- After storing that succeeds there is a document at each place, of a kind that has this place. -/
theorem exists_kind_of_place {place : Kind → Location} {kind : Kind} (hkind : kind ∈ kinds)
    (hroot : ∀ e ∈ reached (fun kind => .ok (place kind)) kinds, e.2 ≠ []) :
    ∃ kind', place kind' = place kind ∧ ∀ files fs,
      (setDocuments files (reached (fun kind => .ok (place kind)) kinds) fs).node? (place kind)
        = some (.file (fileContent (files.get kind'))) := by
  rw [reached_of_ok] at hroot ⊢
  rcases setDocuments_cases hroot (place kind) with ⟨hnone, _⟩ | ⟨kind', hmem, hnode⟩
  · refine absurd ?_ hnone
    rw [List.map_map]
    exact List.mem_map_of_mem hkind
  · obtain ⟨_, _, heq⟩ := List.mem_map.mp hmem
    obtain ⟨rfl, hsame⟩ := Prod.mk.inj heq
    exact ⟨_, hsame, hnode⟩

theorem exists_document_of_writeKinds {written : List Path} {kind : Kind}
    (h : files.writeKinds directory name kinds fs = (.ok written, fs')) (hkind : kind ∈ kinds) :
    ∃ l doc, fs.place? (kind.file directory name) = some l ∧
      fs'.node? l = some (.file (fileContent doc)) := by
  obtain ⟨place, _, hplace, hstate, _⟩ := lands_of_writeKinds h
  have hreached := (writeKinds_of_lands files fun kind hkind => (hplace kind hkind).1).2.2
  obtain ⟨kind', _, hnode⟩ := exists_kind_of_place hkind fun e he => (hreached e he).2.2
  exact ⟨place kind, files.get kind', (hplace kind hkind).2, by rw [hstate, hnode]⟩

/-! ## The same documents with other identifiers -/

/-- The same document, but that it may have another identifier. -/
def SameButId (doc doc' : Json) : Prop :=
  ∀ id, setMember doc "uuid" id = setMember doc' "uuid" id

/-- The same three documents, but that they may have other identifiers. -/
def AlikeFiles (files files' : SyntaxFiles) : Prop :=
  ∀ kind, SameButId (files.get kind) (files'.get kind)

/-- The same at a location, or documents that are the same but for their identifiers. -/
def SameButIdAt (fs fs' : FileSystem) (l : Location) : Prop :=
  fs'.node? l = fs.node? l ∨ ∃ doc doc', fs.node? l = some (.file (fileContent doc)) ∧
    fs'.node? l = some (.file (fileContent doc')) ∧ SameButId doc doc'

/-- The same file system but for the identifiers of documents. -/
structure SameButIds (fs fs' : FileSystem) : Prop where
  cwd : fs'.cwd = fs.cwd
  node : ∀ l, SameButIdAt fs fs' l

theorem sameButIdAt_setDocuments {ps : List (Kind × Location)} (hfiles : AlikeFiles files files')
    (hroot : ∀ e ∈ ps, e.2 ≠ []) (h : m ∉ ps.map Prod.snd → SameButIdAt fs fs' m) :
    SameButIdAt (setDocuments files ps fs) (setDocuments files' ps fs') m := by
  rcases setDocuments_cases hroot m with ⟨hm, hnode⟩ | ⟨kind, _, hnode⟩
  · rw [SameButIdAt, hnode, hnode]
    exact h hm
  · exact Or.inr ⟨_, _, hnode files fs, hnode files' fs', hfiles kind⟩

theorem AlikeFiles.symm (h : AlikeFiles files files') : AlikeFiles files' files :=
  fun kind id => (h kind id).symm

/-- **Documents at different places can be stored in either order.** -/
theorem sameButIds_setDocuments_comm {others others' : SyntaxFiles}
    {ps qs : List (Kind × Location)} (hfiles : AlikeFiles files files')
    (hothers : AlikeFiles others others') (hps : ∀ e ∈ ps, e.2 ≠ []) (hqs : ∀ e ∈ qs, e.2 ≠ [])
    (hdisjoint : ∀ m ∈ ps.map Prod.snd, m ∉ qs.map Prod.snd) (fs : FileSystem) :
    SameButIds (setDocuments others' qs (setDocuments files ps fs))
      (setDocuments files' ps (setDocuments others qs fs)) := by
  refine ⟨by simp only [cwd_setDocuments], fun m => ?_⟩
  by_cases hm : m ∈ qs.map Prod.snd
  · -- the second list decides, wherever it comes
    have hps' : m ∉ ps.map Prod.snd := fun hmem => hdisjoint m hmem hm
    have hsame : SameButIdAt (setDocuments others' qs (setDocuments files ps fs))
        (setDocuments others qs fs) m :=
      sameButIdAt_setDocuments hothers.symm hqs fun h => absurd hm h
    rwa [SameButIdAt, node?_setDocuments files' hps hps']
  · rw [SameButIdAt, node?_setDocuments others' hqs hm]
    exact sameButIdAt_setDocuments hfiles hps fun _ => Or.inl (node?_setDocuments others hqs hm)

end Highlight.SyntaxFiles
