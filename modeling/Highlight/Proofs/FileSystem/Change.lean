import Highlight.FileSystem.Basic

/-!
# How a file system changes

Three relations between a file system and what becomes of it, each closed under taking one change
after another. `FilesWritten` and `DirectoriesMade` are what the two kinds of steps do that a
program takes to write its output. Both imply `Keeps`: all that was there is still there, though
files may have other bytes.
-/

namespace Highlight

/-- Two nodes that differ at most in the bytes of a file. -/
def Node.Alike (n n' : Node) : Prop := n = n' ∨ ∃ c c', n = .file c ∧ n' = .file c'

theorem Node.Alike.refl (n : Node) : n.Alike n := Or.inl rfl

theorem Node.Alike.trans {n₁ n₂ n₃ : Node} (h : n₁.Alike n₂) (h' : n₂.Alike n₃) :
    n₁.Alike n₃ := by
  rcases h with rfl | ⟨c, c', rfl, rfl⟩
  · exact h'
  · rcases h' with rfl | ⟨_, c'', _, rfl⟩
    · exact Or.inr ⟨c, c', rfl, rfl⟩
    · exact Or.inr ⟨c, c'', rfl, rfl⟩

theorem Node.Alike.file {c : ByteArray} {n : Node} (h : (Node.file c).Alike n) :
    ∃ c', n = .file c' := by
  rcases h with rfl | ⟨_, c', _, rfl⟩
  · exact ⟨c, rfl⟩
  · exact ⟨c', rfl⟩

namespace FileSystem

/-- `fs'` has every node of `fs`; only files may have other bytes. -/
structure Keeps (fs fs' : FileSystem) : Prop where
  cwd : fs'.cwd = fs.cwd
  node : ∀ l n, fs.node? l = some n → ∃ n', fs'.node? l = some n' ∧ n.Alike n'

/-- `fs'` is `fs` with files written: other bytes in some, and some that are new. -/
structure FilesWritten (fs fs' : FileSystem) : Prop extends Keeps fs fs' where
  new : ∀ l n, fs.node? l = none → fs'.node? l = some n → ∃ c, n = .file c

/-- `fs'` is `fs` with directories made. -/
structure DirectoriesMade (fs fs' : FileSystem) : Prop where
  cwd : fs'.cwd = fs.cwd
  node : ∀ l n, fs.node? l = some n → fs'.node? l = some n
  new : ∀ l n, fs.node? l = none → fs'.node? l = some n → n = .directory

variable {fs fs' fs'' : FileSystem}

theorem Keeps.refl (fs : FileSystem) : Keeps fs fs := ⟨rfl, fun _ n h => ⟨n, h, .refl n⟩⟩

theorem Keeps.trans (h : Keeps fs fs') (h' : Keeps fs' fs'') : Keeps fs fs'' := by
  refine ⟨h'.cwd.trans h.cwd, ?_⟩
  intro l n hn
  obtain ⟨n', hn', ha⟩ := h.node l n hn
  obtain ⟨n'', hn'', ha'⟩ := h'.node l n' hn'
  exact ⟨n'', hn'', ha.trans ha'⟩

theorem Keeps.file (h : Keeps fs fs') {l : Location} {c : ByteArray}
    (hl : fs.node? l = some (.file c)) : ∃ c', fs'.node? l = some (.file c') := by
  obtain ⟨n', hn', ha⟩ := h.node l _ hl
  obtain ⟨c', rfl⟩ := ha.file
  exact ⟨c', hn'⟩

/-- What is no file is just what it was. -/
theorem Keeps.node?_of_ne (h : Keeps fs fs') {l : Location} {n : Node} (hn : ∀ c, n ≠ .file c)
    (hl : fs.node? l = some n) : fs'.node? l = some n := by
  obtain ⟨n', hn', rfl | ⟨c, _, rfl, _⟩⟩ := h.node l n hl
  · exact hn'
  · exact absurd rfl (hn c)

theorem Keeps.directory (h : Keeps fs fs') {l : Location} (hl : fs.node? l = some .directory) :
    fs'.node? l = some .directory := h.node?_of_ne (fun _ => by simp) hl

theorem Keeps.link (h : Keeps fs fs') {l : Location} {t : Path}
    (hl : fs.node? l = some (.link t)) : fs'.node? l = some (.link t) :=
  h.node?_of_ne (fun _ => by simp) hl

theorem FilesWritten.refl (fs : FileSystem) : FilesWritten fs fs :=
  ⟨.refl fs, fun l n h hn => by rw [h] at hn; cases hn⟩

theorem FilesWritten.trans (h : FilesWritten fs fs') (h' : FilesWritten fs' fs'') :
    FilesWritten fs fs'' := by
  refine ⟨h.toKeeps.trans h'.toKeeps, ?_⟩
  intro l n hl hn
  cases hm : fs'.node? l with
  | none => exact h'.new l n hm hn
  | some n' =>
    -- new in the first change, perhaps written again in the second
    obtain ⟨c, rfl⟩ := h.new l n' hl hm
    obtain ⟨c', hc'⟩ := h'.toKeeps.file hm
    exact ⟨c', Option.some.inj (hn.symm.trans hc')⟩

theorem FilesWritten.node?_iff (h : FilesWritten fs fs') {l : Location} {n : Node}
    (hn : ∀ c, n ≠ .file c) : fs'.node? l = some n ↔ fs.node? l = some n := by
  refine ⟨fun hl => ?_, h.toKeeps.node?_of_ne hn⟩
  cases hold : fs.node? l with
  | none =>
    -- nothing stood there, so it is one of the files that were written
    obtain ⟨c, rfl⟩ := h.new l n hold hl
    exact absurd rfl (hn c)
  | some n' =>
    -- what stood there is kept, or is a file with other bytes
    obtain ⟨n'', hn'', ha⟩ := h.node l n' hold
    obtain rfl := Option.some.inj (hl.symm.trans hn'')
    rcases ha with rfl | ⟨_, c, _, rfl⟩
    · rfl
    · exact absurd rfl (hn c)

theorem FilesWritten.directory_iff (h : FilesWritten fs fs') {l : Location} :
    fs'.node? l = some .directory ↔ fs.node? l = some .directory :=
  h.node?_iff fun _ => by simp

theorem FilesWritten.link_iff (h : FilesWritten fs fs') {l : Location} {t : Path} :
    fs'.node? l = some (.link t) ↔ fs.node? l = some (.link t) :=
  h.node?_iff fun _ => by simp

theorem DirectoriesMade.refl (fs : FileSystem) : DirectoriesMade fs fs :=
  ⟨rfl, fun _ _ h => h, fun l n h hn => by rw [h] at hn; cases hn⟩

theorem DirectoriesMade.trans (h : DirectoriesMade fs fs') (h' : DirectoriesMade fs' fs'') :
    DirectoriesMade fs fs'' := by
  refine ⟨h'.cwd.trans h.cwd, fun l n hn => h'.node l n (h.node l n hn), ?_⟩
  intro l n hl hn
  cases hm : fs'.node? l with
  | none => exact h'.new l n hm hn
  | some n' =>
    obtain rfl := h.new l n' hl hm
    exact Option.some.inj (hn.symm.trans (h'.node l _ hm))

theorem DirectoriesMade.keeps (h : DirectoriesMade fs fs') : Keeps fs fs' :=
  ⟨h.cwd, fun l n hn => ⟨n, h.node l n hn, .refl n⟩⟩

/-- No link is new. -/
theorem DirectoriesMade.link (h : DirectoriesMade fs fs') {l : Location} {t : Path}
    (hl : fs'.node? l = some (.link t)) : fs.node? l = some (.link t) := by
  cases hn : fs.node? l with
  | none => cases h.new l _ hn hl
  | some n => rw [← h.node l n hn, hl]

theorem DirectoriesMade.none_of_none (h : DirectoriesMade fs fs') {l : Location}
    (hl : fs'.node? l = none) : fs.node? l = none := by
  cases hn : fs.node? l with
  | none => rfl
  | some n => rw [h.node l n hn] at hl; cases hl

/-! ## Setting one node -/

theorem find_insert (nodes : List (Location × Node)) (l m : Location) (n : Node) :
    find (insert nodes l n) m = if l = m then some n else find nodes m := by
  induction nodes with
  | nil => rfl
  | cons e nodes ih =>
    obtain ⟨k, n'⟩ := e
    rw [insert]
    by_cases hk : k = l
    · -- the entry is replaced where it stands
      subst hk
      rw [if_pos rfl, find, find]
      split <;> rfl
    · rw [if_neg hk, find, find, ih]
      by_cases hm : k = m
      · subst hm
        rw [if_pos rfl, if_pos rfl, if_neg (Ne.symm hk)]
      · rw [if_neg hm, if_neg hm]

theorem node?_root (fs : FileSystem) : fs.node? [] = some .directory := rfl

/-- Of two nodes put at one location the second one stays. -/
theorem set_set (fs : FileSystem) (l : Location) (n n' : Node) :
    (fs.set l n).set l n' = fs.set l n' := by
  have hnodes (nodes : List (Location × Node)) :
      insert (insert nodes l n) l n' = insert nodes l n' := by
    induction nodes with
    | nil => exact if_pos rfl
    | cons e nodes ih =>
      rw [insert, insert]
      split
      · next he => rw [insert, if_pos he]
      · next he => rw [insert, if_neg he, ih]
  rw [set, set, set, hnodes]

theorem node?_set {l : Location} (hl : l ≠ []) (m : Location) (n : Node) :
    (fs.set l n).node? m = if l = m then some n else fs.node? m := by
  rw [node?, node?, set]
  by_cases hm : m = []
  · rw [if_pos hm, if_pos hm, if_neg (fun h => hl (h.trans hm))]
  · rw [if_neg hm, if_neg hm, find_insert]

theorem node?_set_self {l : Location} (hl : l ≠ []) (n : Node) :
    (fs.set l n).node? l = some n := by
  rw [node?_set hl, if_pos rfl]

theorem node?_set_ne {l m : Location} (hl : l ≠ []) (n : Node) (h : l ≠ m) :
    (fs.set l n).node? m = fs.node? m := by
  rw [node?_set hl, if_neg h]

/-- The root is neither free nor a file. -/
theorem ne_root_of_none {l : Location} (h : fs.node? l = none) : l ≠ [] := by
  rintro rfl
  cases h

theorem ne_root_of_file {l : Location} {c : ByteArray} (h : fs.node? l = some (.file c)) :
    l ≠ [] := by
  rintro rfl
  cases h

/-- What is put where nothing stood replaces nothing. -/
theorem node?_set_of_none {l m : Location} {n' : Node} (hl : fs.node? l = none) (n : Node)
    (hm : fs.node? m = some n') : (fs.set l n).node? m = some n' := by
  rw [node?_set_ne (ne_root_of_none hl) n, hm]
  rintro rfl
  rw [hl] at hm
  cases hm

theorem filesWritten_set {l : Location} {c : ByteArray}
    (h : fs.node? l = none ∨ ∃ c', fs.node? l = some (.file c')) :
    FilesWritten fs (fs.set l (.file c)) := by
  have hl : l ≠ [] := by
    rcases h with h | ⟨c', h⟩
    · exact ne_root_of_none h
    · exact ne_root_of_file h
  refine ⟨⟨rfl, ?_⟩, ?_⟩
  · intro m n hn
    by_cases hm : l = m
    · subst hm
      refine ⟨_, node?_set_self hl _, ?_⟩
      -- where a file is put over another, the two are alike
      rcases h with h | ⟨c', h⟩
      · rw [h] at hn; cases hn
      · exact Or.inr ⟨c', c, Option.some.inj (hn.symm.trans h), rfl⟩
    · exact ⟨n, by rw [node?_set_ne hl _ hm, hn], .refl n⟩
  · intro m n hm hn
    -- only the file itself is new
    by_cases hlm : l = m
    · subst hlm
      rw [node?_set_self hl] at hn
      exact ⟨c, (Option.some.inj hn).symm⟩
    · rw [node?_set_ne hl _ hlm, hm] at hn
      cases hn

theorem directoriesMade_set {l : Location} (h : fs.node? l = none) :
    DirectoriesMade fs (fs.set l .directory) := by
  have hl : l ≠ [] := ne_root_of_none h
  refine ⟨rfl, fun _ _ => node?_set_of_none h _, ?_⟩
  intro m n hm hn
  by_cases hlm : l = m
  · subst hlm
    rw [node?_set_self hl] at hn
    exact (Option.some.inj hn).symm
  · rw [node?_set_ne hl _ hlm, hm] at hn
    cases hn

end FileSystem

end Highlight
