import Highlight.Proofs.FileSystem.Entries

/-!
# The places of paths while files are written

The place of a path is where it leads with every link followed, whether or not something stands
there. Writing files moves no place (`place?_of_filesWritten`), so that a path is read as before
unless its place is one that was written (`locate_of_untouched`). One thing about it may change: a
new file may stand in the way of a path that led nowhere, which then fails for another reason.

`Lands` tells what comes of writing to a path, now and after any other files were written.
-/

namespace Highlight.FileSystem

variable {fs fs' fs'' : FileSystem} {p q : Path} {l : Location} {last : LastStep}

/-! ## What files that are written change about a path -/

/--
Where a path leads at first, and where it leads in `fs'`, which has more files: to the same, to a
file where nothing stood, or nowhere any more because of a file in its way.
-/
inductive Rewritten (fs' : FileSystem) : Except FileError Spot → Except FileError Spot → Prop where
  | same (r : Except FileError Spot) : Rewritten fs' r r
  | filled {d : Location} {name : RawText} {slash : Bool} {c : ByteArray} :
      fs'.node? (name :: d) = some (.file c) →
      Rewritten fs' (.ok (.free d name slash)) (.ok (.taken (name :: d) slash))
  | blocked : Rewritten fs' (.error .notFound) (.error .notADirectory)

theorem rewritten_followWith (h : FilesWritten fs fs')
    {go go' : Location → Path → List Step → Bool → Except FileError Spot}
    (hgo : ∀ d t rest slash, Rewritten fs' (go d t rest slash) (go' d t rest slash))
    (steps : List Step) (slash : Bool) (d : Location) :
    Rewritten fs' (followWith fs last go steps slash d)
      (followWith fs' last go' steps slash d) := by
  -- step by step; both walks stay together until a name that was free for the one is taken
  induction steps generalizing d with
  | nil => exact .same _
  | cons step rest ih =>
    cases step with
    | here => exact ih d
    | up => exact ih d.tail
    | into name =>
      rw [followWith, followWith]
      split
      · -- a name that is refused is refused in both
        exact .same _
      · split
        · exact .same _
        · cases hn : fs.node? (name :: d) with
          | none =>
            -- nothing stood there before
            cases hn' : fs'.node? (name :: d) with
            | none => exact .same _
            | some n =>
              -- a file was put there: a last step leads to it, and it is in the way of others
              obtain ⟨c, rfl⟩ := h.new _ n hn hn'
              dsimp only
              split
              · exact .filled hn'
              · exact .blocked
          | some n =>
            cases n with
            | file c =>
              -- a file stays one
              obtain ⟨c', hn'⟩ := h.file hn
              rw [hn']
              exact .same _
            | directory =>
              -- a directory stays, and the walk goes on in it
              rw [h.directory hn]
              exact ih _
            | link t =>
              -- so does a link, which both walks follow
              rw [h.link hn]
              dsimp only
              split
              · exact .same _
              · exact hgo _ _ _ _

theorem rewritten_follow (h : FilesWritten fs fs') (links : Nat) (steps : List Step)
    (slash : Bool) (d : Location) :
    Rewritten fs' (follow fs last links steps slash d) (follow fs' last links steps slash d) := by
  induction links generalizing steps slash d with
  | zero => exact rewritten_followWith h (fun _ _ _ _ => .same _) steps slash d
  | succ links ih => exact rewritten_followWith h (fun _ _ _ _ => ih _ _ _) steps slash d

/-- What can become of a path while files are written. -/
theorem spot_cases (h : FilesWritten fs fs') (last : LastStep) (p : Path) :
    fs'.spot last p = fs.spot last p ∨
      (∃ d name slash c, fs.spot last p = .ok (.free d name slash) ∧
        fs'.spot last p = .ok (.taken (name :: d) slash) ∧
        fs'.node? (name :: d) = some (.file c)) ∨
      fs.spot last p = .error .notFound ∧ fs'.spot last p = .error .notADirectory := by
  rw [spot, spot, h.cwd]
  split
  · -- a path that is at fault leads nowhere, before and after
    exact Or.inl rfl
  · have hrewritten := @rewritten_follow fs fs' last h maxLinks p.steps p.endsInSlash
      (origin p fs.cwd)
    rw [origin] at hrewritten
    generalize fs.follow last maxLinks p.steps p.endsInSlash _ = r at hrewritten ⊢
    generalize fs'.follow last maxLinks p.steps p.endsInSlash _ = r' at hrewritten ⊢
    cases hrewritten with
    | same => exact Or.inl rfl
    | filled hn => exact Or.inr (Or.inl ⟨_, _, _, _, rfl, rfl, hn⟩)
    | blocked => exact Or.inr (Or.inr ⟨rfl, rfl⟩)

theorem FilesWritten.keepsWays (h : FilesWritten fs fs') : KeepsWays fs fs' :=
  ⟨h.cwd, fun _ _ hn => h.toKeeps.node?_of_ne hn⟩

/-! ## Places -/

/-- Where a path leads with every link followed, whether or not something stands there. -/
def place? (fs : FileSystem) (p : Path) : Option Location :=
  (fs.spot ⟨true, false⟩ p).toOption.map Spot.location

theorem place?_of_spot {spot : Spot} (h : fs.spot ⟨true, false⟩ p = .ok spot) :
    fs.place? p = some spot.location := by
  rw [place?, h]
  rfl

/-- **Writing files moves no place.** -/
theorem place?_of_filesWritten (h : FilesWritten fs fs') (p : Path) :
    fs'.place? p = fs.place? p := by
  rw [place?, place?]
  rcases spot_cases h ⟨true, false⟩ p with hs | ⟨d, name, slash, c, hs, hs', _⟩ | ⟨hs, hs'⟩
  · rw [hs]
  · rw [hs, hs']
    rfl
  · rw [hs, hs']
    rfl

/-- What stands at the places of the paths is the same in both file systems. -/
def Untouched (fs fs' : FileSystem) (ps : List Path) : Prop :=
  ∀ p ∈ ps, ∀ l, fs.place? p = some l → fs'.node? l = fs.node? l

/-- No path of the first list has the place of one of the second. -/
def Apart (fs : FileSystem) (ps qs : List Path) : Prop :=
  ∀ p ∈ ps, ∀ q ∈ qs, fs.place? p = none ∨ fs.place? p ≠ fs.place? q

instance (fs : FileSystem) (ps qs : List Path) : Decidable (Apart fs ps qs) :=
  inferInstanceAs (Decidable (∀ p ∈ ps, ∀ q ∈ qs, fs.place? p = none ∨ fs.place? p ≠ fs.place? q))

theorem Untouched.subset {ps qs : List Path} (h : Untouched fs fs' qs) (hps : ps ⊆ qs) :
    Untouched fs fs' ps := fun p hp => h p (hps hp)

/-- Paths at known places are apart if the places are others. -/
theorem apart_of_places {ps qs : List Path} {ls ms : List Location}
    (hps : ps.map fs.place? = ls.map some) (hqs : qs.map fs.place? = ms.map some)
    (h : ∀ l ∈ ls, l ∉ ms) : Apart fs ps qs := by
  intro p hp q hq
  obtain ⟨l, hl, hplace⟩ := List.mem_map.mp (hps ▸ List.mem_map_of_mem hp)
  obtain ⟨m, hm, hplace'⟩ := List.mem_map.mp (hqs ▸ List.mem_map_of_mem hq)
  rw [← hplace, ← hplace']
  right
  rintro ⟨⟩
  exact h l hl hm

/-- Where only places of other paths change, paths are untouched. -/
theorem untouched_of_apart {ps qs : List Path} (h : Apart fs ps qs)
    (hother : ∀ l, (∀ q ∈ qs, fs.place? q ≠ some l) → fs'.node? l = fs.node? l) :
    Untouched fs fs' ps := by
  intro p hp l hl
  refine hother l fun q hq hplace => ?_
  rcases h p hp q hq with hnone | hne
  · rw [hl] at hnone
    cases hnone
  · exact hne (hl.trans hplace.symm)

/-! ## Reading what was not written -/

/-- Two outcomes that are the same, but that a missing file may be told as a file in the way. -/
def SameButBlocked {α : Type} (r r' : Except FileError α) : Prop :=
  r' = r ∨ r = .error .notFound ∧ r' = .error .notADirectory

section Untouched

variable {ps : List Path}

theorem locate_of_untouched (h : FilesWritten fs fs') (hu : Untouched fs fs' ps) (hp : p ∈ ps) :
    SameButBlocked (fs.locate p) (fs'.locate p) := by
  rw [locate, locate]
  rcases spot_cases h ⟨true, false⟩ p with hs | ⟨d, name, slash, c, hs, _, hn⟩ | ⟨hs, hs'⟩
  · left
    rw [hs]
    cases hspot : fs.spot ⟨true, false⟩ p with
    | error e => rfl
    | ok spot =>
      cases spot with
      | free d name slash => rfl
      | taken l slash =>
        -- a node that is reached is the same as before
        have hsame : fs'.node? l = fs.node? l := hu p hp l (place?_of_spot hspot)
        dsimp only
        rw [hsame]
  · -- nothing stood at the place, and it was not written
    have hsame : fs'.node? (name :: d) = fs.node? (name :: d) := hu p hp _ (place?_of_spot hs)
    rw [hsame, (spot_ok_iff.mp hs).2.node?_free] at hn
    cases hn
  · right
    rw [hs, hs']
    exact ⟨rfl, rfl⟩

theorem isFile_of_untouched (h : FilesWritten fs fs') (hu : Untouched fs fs' ps) (hp : p ∈ ps) :
    fs'.isFile p = fs.isFile p := by
  rw [isFile, isFile]
  rcases locate_of_untouched h hu hp with hl | ⟨hl, hl'⟩
  · rw [hl]
  · rw [hl, hl']

theorem readText_of_untouched (h : FilesWritten fs fs') (hu : Untouched fs fs' ps) (hp : p ∈ ps) :
    SameButBlocked (fs.readText p) (fs'.readText p) := by
  rw [readText, readText, read, read]
  rcases locate_of_untouched h hu hp with hl | ⟨hl, hl'⟩
  · left
    rw [hl]
  · right
    rw [hl, hl']
    exact ⟨rfl, rfl⟩

/-- A file that is there is read as before. -/
theorem readText_of_isFile (h : FilesWritten fs fs') (hu : Untouched fs fs' ps) (hp : p ∈ ps)
    (hfile : fs.isFile p = true) : fs'.readText p = fs.readText p := by
  obtain ⟨l, c, hfile⟩ := isFile_iff.mp hfile
  rw [readText, readText, read, read]
  rcases locate_of_untouched h hu hp with hl | ⟨hl, _⟩
  · rw [hl]
  · rw [hfile] at hl
    cases hl

end Untouched

theorem canonical_ok_iff : fs.canonical p = .ok l ↔
    ∃ s n, fs.spot ⟨true, false⟩ p = .ok (.taken l s) ∧ fs.node? l = some n ∧
      ∀ c, n = .file c → s = false := by
  constructor
  · -- where the path leads, a file has no slash behind it
    intro h
    obtain ⟨⟨l', n⟩, hlocate, rfl⟩ := exists_of_map_ok h
    obtain ⟨s, hs⟩ := exists_spot_of_locate hlocate
    refine ⟨s, n, hs, node?_of_locate hlocate, ?_⟩
    rintro c rfl
    have hs' := (locate_file_iff.mp hlocate).1
    rw [hs] at hs'
    cases hs'
    rfl
  · -- and so it leads there, if the file is not asked to be a directory
    rintro ⟨s, n, hs, hn, hfile⟩
    have hlocate : fs.locate p = .ok (l, n) := by
      rw [locate, hs]
      dsimp only
      rw [hn]
      cases n with
      | file c => rw [hfile c rfl]; rfl
      | directory => rfl
      | link t => rfl
    exact canonical_of_locate hlocate

/-- A path leads to an old node after files were written if and only if it did so before. -/
theorem canonical_of_filesWritten (h : FilesWritten fs fs') (hl : fs.node? l ≠ none) :
    fs'.canonical p = .ok l ↔ fs.canonical p = .ok l := by
  obtain ⟨n, hn⟩ := Option.ne_none_iff_exists'.mp hl
  obtain ⟨n', hn', halike⟩ := h.node l n hn
  have hfile : (∃ c, n = .file c) ↔ ∃ c, n' = .file c := by
    rcases halike with rfl | ⟨c, c', rfl, rfl⟩
    · exact Iff.rfl
    · exact iff_of_true ⟨c, rfl⟩ ⟨c', rfl⟩
  rw [canonical_ok_iff, canonical_ok_iff]
  constructor
  · -- after the writes there is the same kind of node
    rintro ⟨s, m, hs, hm, hslash⟩
    obtain rfl : m = n' := Option.some.inj (hm.symm.trans hn')
    refine ⟨s, n, spot_taken_of_filesWritten h hl hs, hn, fun c hc => ?_⟩
    obtain ⟨c', hc'⟩ := hfile.mp ⟨c, hc⟩
    exact hslash c' hc'
  · -- and before them there was
    rintro ⟨s, m, hs, hm, hslash⟩
    obtain rfl : m = n := Option.some.inj (hm.symm.trans hn)
    refine ⟨s, n', spot_taken_of_keeps h.toKeeps hs, hn', fun c hc => ?_⟩
    obtain ⟨c', hc'⟩ := hfile.mpr ⟨c, hc⟩
    exact hslash c' hc'

/-! ## What comes of writing -/

/--
Writing to the path comes out like this: the file is put at the location, or there is an error. It
does so after any other files were written, too.
-/
structure Lands (fs : FileSystem) (p : Path) (r : Except FileError Location) : Prop where
  write : ∀ fs', FilesWritten fs fs' → ∀ content,
    fs'.write p content = r.map fun l => fs'.set l (.file content)
  fileAt : ∀ l, r = .ok l → FileAt fs l

theorem FileAt.of_filesWritten (h : FilesWritten fs fs') (hl : FileAt fs l) : FileAt fs' l := by
  intro n hn
  cases hold : fs.node? l with
  | none => exact h.new l n hold hn
  | some n' =>
    obtain ⟨c, rfl⟩ := hl n' hold
    obtain ⟨c', hc'⟩ := h.file hold
    exact ⟨c', Option.some.inj (hn.symm.trans hc')⟩

theorem Lands.of_filesWritten {r : Except FileError Location} (h : FilesWritten fs fs')
    (hl : Lands fs p r) : Lands fs' p r :=
  ⟨fun _ h' => hl.write _ (h.trans h'), fun l hr => (hl.fileAt l hr).of_filesWritten h⟩

theorem Lands.ne_root (hl : Lands fs p (.ok l)) : l ≠ [] := by
  rcases (hl.fileAt l rfl).cases with hnone | ⟨c, hc⟩
  · exact ne_root_of_none hnone
  · exact ne_root_of_file hc

/-- The file that is written where the path lands. -/
theorem Lands.filesWritten (hl : Lands fs p (.ok l)) (content : ByteArray) :
    FilesWritten fs (fs.set l (.file content)) :=
  filesWritten_set (hl.fileAt l rfl).cases

/-- Where a file is written once, any file is written, also later. -/
theorem lands_of_write {content : ByteArray} (h : fs.write p content = .ok fs') :
    ∃ l, Lands fs p (.ok l) ∧ fs.place? p = some l ∧ fs' = fs.set l (.file content) := by
  rw [write] at h
  split at h
  · cases h
  · next d name slash hs =>
    -- the place was free
    refine ⟨name :: d, ⟨?_, ?_⟩, place?_of_spot (spot_of_makesFile hs), (Except.ok.inj h).symm⟩
    · intro now hnow content
      rw [write]
      -- later it is still free, or a file stands in it that is written over
      rcases spot_cases hnow ⟨true, true⟩ p with hs' | ⟨_, _, _, c, hold, hs', hn⟩ | ⟨hold, _⟩
      · rw [hs', hs]
        rfl
      · rw [hs] at hold
        cases hold
        rw [hs']
        dsimp only
        rw [hn]
        rfl
      · rw [hs] at hold
        cases hold
    · -- and no node is there before the first write
      intro l hr n hn
      cases hr
      rw [(spot_ok_iff.mp hs).2.node?_free] at hn
      cases hn
  · next l slash hs =>
    split at h
    · next c hc =>
      -- a file stands there, and will stand there later
      refine ⟨l, ⟨?_, ?_⟩, place?_of_spot (spot_of_makesFile hs), (Except.ok.inj h).symm⟩
      · intro now hnow content
        obtain ⟨c', hc'⟩ := hnow.file hc
        rw [write, spot_taken_of_keeps hnow.toKeeps hs]
        dsimp only
        rw [hc']
        rfl
      · intro l' hr n hn
        cases hr
        exact ⟨c, Option.some.inj (hn.symm.trans hc)⟩
    · cases h

/-- Other files do not help a path that cannot be written, unless nothing was found. -/
theorem lands_of_error {e : FileError} (hs : fs.spot ⟨true, true⟩ p = .error e)
    (he : e ≠ .notFound) : Lands fs p (.error e) := by
  refine ⟨fun now hnow content => ?_, fun l hr => by cases hr⟩
  rw [write]
  rcases spot_cases hnow ⟨true, true⟩ p with hs' | ⟨_, _, _, _, hold, _⟩ | ⟨hold, _⟩
  · rw [hs', hs]
    rfl
  · rw [hs] at hold
    -- there was no place to write to, so this is no matter of what was missing
    cases hold
  · rw [hs] at hold
    cases hold
    exact absurd rfl he

theorem lands_of_directory {slash : Bool} (hs : fs.spot ⟨true, true⟩ p = .ok (.taken l slash))
    (hd : fs.node? l = some .directory) : Lands fs p (.error .isADirectory) := by
  refine ⟨fun now hnow content => ?_, fun l hr => by cases hr⟩
  rw [write, spot_taken_of_keeps hnow.toKeeps hs]
  dsimp only
  rw [hnow.directory hd]
  rfl

/-- Whether a link stands at the path itself. -/
def isLink (fs : FileSystem) (p : Path) : Bool :=
  match fs.spot ⟨false, false⟩ p with
  | .ok (.taken l _) =>
    match fs.node? l with
    | some (.link _) => true
    | _ => false
  | _ => false

theorem isLink_iff : fs.isLink p = true ↔ ∃ l slash target,
    fs.spot ⟨false, false⟩ p = .ok (.taken l slash) ∧ fs.node? l = some (.link target) := by
  rw [isLink]
  constructor
  · -- it has to stop at a node, and the node has to be a link
    intro h
    split at h
    · next hs =>
      split at h
      · next hn => exact ⟨_, _, _, hs, hn⟩
      · cases h
    · cases h
  · rintro ⟨l, slash, target, hs, hn⟩
    rw [hs]
    dsimp only
    rw [hn]

theorem isLink_of_no_links (h : ∀ l t, fs.node? l ≠ some (.link t)) (p : Path) :
    fs.isLink p = false := by
  rw [Bool.eq_false_iff]
  intro hlink
  obtain ⟨l, _, target, _, hn⟩ := isLink_iff.mp hlink
  exact h l target hn

/-- Writing files puts no link anywhere. -/
theorem isLink_of_filesWritten (h : FilesWritten fs fs') (hlink : fs.isLink p = false) :
    fs'.isLink p = false := by
  rw [Bool.eq_false_iff] at hlink ⊢
  intro hlink'
  obtain ⟨l, slash, target, hs', hn'⟩ := isLink_iff.mp hlink'
  rcases spot_cases h ⟨false, false⟩ p with hs | ⟨d, name, slash', c, _, hfilled, hn⟩ | ⟨_, herror⟩
  · exact hlink (isLink_iff.mpr ⟨l, slash, target, hs.symm.trans hs', h.link_iff.mp hn'⟩)
  · cases hfilled.symm.trans hs'
    cases hn.symm.trans hn'
  · cases herror.symm.trans hs'

/-- What stands at the end of a path is replaced, unless it is a directory or a link. -/
theorem write_of_spot_entry {name : RawText} {d : Location} {content : ByteArray}
    (hs : fs.spot ⟨true, true⟩ p = if (fs.node? (name :: d)).isSome
      then .ok (.taken (name :: d) false) else .ok (.free d name false))
    (hlink : ∀ t, fs.node? (name :: d) ≠ some (.link t))
    (hdirectory : fs.node? (name :: d) ≠ some .directory) :
    fs.write p content = .ok (fs.set (name :: d) (.file content)) := by
  rw [write, hs]
  cases hn : fs.node? (name :: d) with
  | none => rfl
  | some node =>
    cases node with
    | file c => simp [hn]
    | directory => exact absurd hn hdirectory
    | link t => exact absurd hn (hlink t)

/-- Where no link stands at the end of a path, it lands in the directory that it leads into. -/
theorem lands_entry {steps : List Step} {name : RawText} {d : Location} (hp : EndsAt p steps name)
    (he : Enters fs maxLinks steps (origin p fs.cwd) d) (hlink : fs.isLink p = false) :
    (∃ e, Lands fs p (.error e)) ∨
      Lands fs p (.ok (name :: d)) ∧ fs.place? p = some (name :: d) := by
  cases hfault : fault? p with
  | some e =>
    -- the path cannot be a path to any file
    have hs : fs.spot ⟨true, true⟩ p = .error e := by
      rw [spot, hfault]
    refine Or.inl ⟨e, lands_of_error hs ?_⟩
    rintro rfl
    exact fault?_ne_notFound hp hfault
  | none =>
    obtain ⟨n, hs⟩ := spot_of_enters hp hfault he ⟨true, true⟩
    by_cases hlong : maxName < name.bytes.length
    · -- nor can one that ends in too long a name
      rw [follow_eq, followWith, if_neg (by simp), if_pos hlong] at hs
      exact Or.inl ⟨_, lands_of_error hs (by simp)⟩
    · -- else the entry is a file or nothing, since a link would have been told
      have hentry : ∀ t, fs.node? (name :: d) ≠ some (.link t) := by
        intro t ht
        obtain ⟨n', hs'⟩ := spot_of_enters hp hfault he ⟨false, false⟩
        rw [follow_of_follows (.stop ⟨Nat.le_of_not_lt hlong, by simp⟩ ht rfl)] at hs'
        simp [isLink, hs', ht] at hlink
      rw [follow_unlinked hentry, if_neg hlong] at hs
      by_cases hdirectory : fs.node? (name :: d) = some .directory
      · -- a directory stands there, and cannot be written to
        rw [hdirectory] at hs
        exact Or.inl ⟨_, lands_of_directory hs hdirectory⟩
      · -- a file can be written, or made
        have hwrite : fs.write p .empty = _ := write_of_spot_entry hs hentry hdirectory
        obtain ⟨l, hlands, hplace, _⟩ := lands_of_write hwrite
        have hl : l = name :: d := by
          split at hs
          · exact Option.some.inj (hplace.symm.trans (place?_of_spot (spot_of_makesFile hs)))
          · exact Option.some.inj (hplace.symm.trans (place?_of_spot (spot_of_makesFile hs)))
        rw [hl] at hlands hplace
        exact Or.inr ⟨hlands, hplace⟩

/-- What is written where no link stands goes to an entry of a directory, and is read from there. -/
theorem entry_of_write {steps : List Step} {name : RawText} {content : ByteArray}
    (hg : Grounded fs) (hp : EndsAt p steps name) (hlink : fs.isLink p = false)
    (hwrite : fs.write p content = .ok fs') : ∃ d, fs.place? p = some (name :: d) ∧
      ∀ c, fs.node? (name :: d) = some (.file c) → fs.read p = .ok c := by
  -- what was written to was led to
  obtain ⟨spot, hs⟩ : ∃ spot, fs.spot ⟨true, true⟩ p = .ok spot := by
    rw [write] at hwrite
    split at hwrite
    · cases hwrite
    · exact ⟨_, ‹_›⟩
    · exact ⟨_, ‹_›⟩
  obtain ⟨d, n, henters, _⟩ := enters_of_spot hg hp hs
  rcases lands_entry hp henters hlink with ⟨e, herror⟩ | ⟨_, hplace⟩
  · -- it did not fail when it was written
    have hfails := herror.write fs (.refl fs) content
    rw [hwrite] at hfails
    cases hfails
  · -- so it is the entry, and a file there is the one that is read
    refine ⟨d, hplace, fun c hc => ?_⟩
    have hfile : FileAt fs (name :: d) := fun m hm => ⟨c, Option.some.inj (hm.symm.trans hc)⟩
    have hspot := spot_of_makesFile hs
    rcases spot_entry hg hp henters hfile hspot with ⟨_, hnone⟩ | ⟨rfl, _⟩
    · rw [hc] at hnone
      cases hnone
    · exact read_of_locate (locate_file_iff.mpr ⟨hspot, hc⟩)

end Highlight.FileSystem
