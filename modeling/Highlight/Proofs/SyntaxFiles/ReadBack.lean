import Highlight.Proofs.Json.RoundTrip
import Highlight.Proofs.SyntaxFiles.Landing
import Highlight.Proofs.SyntaxFiles.Placement

/-!
# Syntax files are read back

Where none of the three paths ends in a link, each leads to an entry with its own name, so that no
document is written over another. So after storing each file has the bytes of its document
(`read_of_store`), and it is read as that document unless the document nests deeper than the reader
goes (`documentAt_of_store`).
-/

namespace Highlight.SyntaxFiles

open FileSystem

variable {files : SyntaxFiles} {directory : Path} {name : String} {fs fs' : FileSystem}
  {written : List Path}

namespace Kind

/-- The three files of a name have three names. -/
theorem fileName_inj {kind kind' : Kind} (h : kind.fileName name = kind'.fileName name) :
    kind = kind' := by
  refine eq_of_endingBytes_suffix (kind.endingBytes_suffix_fileName name) ?_
  rw [h]
  exact kind'.endingBytes_suffix_fileName name

end Kind

theorem read_of_writeKinds (hg : Grounded fs) (hslash : '/' ∉ name.toList)
    (h : files.writeKinds directory name Kind.all fs = (.ok written, fs'))
    (hlinks : ∀ kind, fs'.isLink (Kind.file kind directory name) = false) (kind : Kind) :
    fs'.read (kind.file directory name) = .ok (fileContent (files.get kind)) := by
  obtain ⟨place, hwritten, hplace, hstate, _⟩ := lands_of_writeKinds h
  have hg' : Grounded fs' := by
    have hgrounded : Grounded (files.writeKinds directory name Kind.all fs).2 :=
      grounded_writeKinds files Kind.all hg
    rwa [h] at hgrounded
  -- no link stands at the end of a path, so that it leads to the entry of its own name
  have hentry : ∀ kind : Kind, (∃ d, place kind = RawText.ofText (kind.fileName name) :: d) ∧ ∀ c,
      fs'.node? (place kind) = some (.file c) → fs'.read (kind.file directory name) = .ok c := by
    intro kind
    obtain ⟨hlands, hold⟩ := hplace kind kind.mem_all
    obtain ⟨d, hd, hread⟩ := entry_of_write hg' (endsAt_fileName hslash kind) (hlinks kind)
      (hlands.write fs' (.refl fs') .empty)
    rw [place?_of_filesWritten hwritten, hold] at hd
    obtain heq := Option.some.inj hd
    exact ⟨⟨d, heq⟩, heq ▸ hread⟩
  -- the entries have different names, so the document that was set last is the one of the kind
  have hinj : ∀ kind', place kind' = place kind → kind' = kind := by
    intro kind' heq
    obtain ⟨d, hd⟩ := (hentry kind).1
    obtain ⟨d', hd'⟩ := (hentry kind').1
    rw [hd, hd'] at heq
    exact Kind.fileName_inj (RawText.ofText_inj.mp (List.cons.inj heq).1)
  have hreached := (writeKinds_of_lands files fun kind hkind => (hplace kind hkind).1).2.2
  obtain ⟨kind', hsame, hnode⟩ :=
    exists_kind_of_place kind.mem_all fun e he => (hreached e he).2.2
  obtain rfl := hinj kind' hsame
  refine (hentry kind').2 _ ?_
  rw [hstate, hnode]

/-- **After storing, each file has the bytes of its document.** -/
theorem read_of_store (hg : Grounded fs) (hslash : '/' ∉ name.toList)
    (h : files.store fs directory name = (.ok written, fs'))
    (hlinks : ∀ kind, fs'.isLink (Kind.file kind directory name) = false) (kind : Kind) :
    fs'.read (kind.file directory name) = .ok (fileContent (files.get kind)) := by
  have hgmade := grounded_makeDirectories hg directory
  rw [store] at h
  split at h
  · cases h
  · next heq =>
    rw [heq] at hgmade
    exact read_of_writeKinds hgmade hslash h hlinks kind

/--
**A stored document is read back**, or it nests deeper than the reader goes and its file is refused.
-/
theorem documentAt_of_store {kind : Kind} {depth : Nat} (hg : Grounded fs)
    (hslash : '/' ∉ name.toList) (h : files.store fs directory name = (.ok written, fs'))
    (hlinks : ∀ kind, fs'.isLink (Kind.file kind directory name) = false)
    (hwithin : Json.Within depth (files.get kind))
    (hreals : ∀ x ∈ (files.get kind).reals, Json.Legible (.real x)) :
    documentAt fs' (kind.file directory name) = .ok (files.get kind) ∨
      Json.maxDepth < (files.get kind).nesting ∧ ∃ cause, documentAt fs' (kind.file directory name)
        = .error (.targetMalformed (kind.file directory name) cause) := by
  have htext : fs'.readText (kind.file directory name) = .ok ((files.get kind).pretty ++ "\n") :=
    readText_of_read (read_of_store hg hslash h hlinks kind)
  rw [documentAt, htext]
  dsimp only
  by_cases hle : (files.get kind).nesting ≤ Json.maxDepth
  · rw [Json.read_pretty hwithin hreals hle]
    exact Or.inl rfl
  · have hlt := Nat.lt_of_not_le hle
    obtain ⟨cause, hread⟩ := Json.exists_read_pretty_error hwithin hreals hlt
    rw [hread]
    exact Or.inr ⟨hlt, cause, rfl⟩

end Highlight.SyntaxFiles
