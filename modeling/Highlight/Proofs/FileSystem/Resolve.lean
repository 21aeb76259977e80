import Highlight.Proofs.FileSystem.Change
import Highlight.FileSystem.Operations

/-!
# Following a path in a file system that changes

`Follows` is `follow` where it does not fail, with a case for each thing that may stand in an entry.
`follow` is opened for the proof that the two are the same (`follow_ok_iff`) and nowhere else.

The frame laws are inductions on it. A path that leads to a node still leads to it when files get
other bytes and new nodes come (`spot_taken_of_keeps`). When all that is new are files, a path leads
to no old node that it did not lead to before (`spot_taken_of_filesWritten`).
-/

namespace Highlight.FileSystem

variable {fs fs' : FileSystem}

/-- Where the steps of a path are counted from that is met in the directory `d`. -/
def origin (p : Path) (d : Location) : Location := if p.isAbsolute then [] else d

/-- A step into the entry `name` with `rest` to come is taken at all. -/
def Admits (last : LastStep) (name : RawText) (rest : List Step) (slash : Bool) : Prop :=
  name.bytes.length ≤ maxName ∧ ¬(rest = [] ∧ last.makesFile ∧ slash)

/-- Following the steps from a directory through at most so many links ends at the spot. -/
inductive Follows (fs : FileSystem) (last : LastStep) :
    Nat → List Step → Bool → Location → Spot → Prop where
  | done {links : Nat} {slash : Bool} {d : Location} :
      Follows fs last links [] slash d (.taken d slash)
  | here {links : Nat} {rest : List Step} {slash : Bool} {d : Location} {spot : Spot} :
      Follows fs last links rest slash d spot → Follows fs last links (.here :: rest) slash d spot
  | up {links : Nat} {rest : List Step} {slash : Bool} {d : Location} {spot : Spot} :
      Follows fs last links rest slash d.tail spot →
      Follows fs last links (.up :: rest) slash d spot
  | free {links : Nat} {name : RawText} {slash : Bool} {d : Location} :
      Admits last name [] slash → fs.node? (name :: d) = none →
      Follows fs last links [.into name] slash d (.free d name slash)
  | file {links : Nat} {name : RawText} {slash : Bool} {d : Location} {c : ByteArray} :
      Admits last name [] slash → fs.node? (name :: d) = some (.file c) →
      Follows fs last links [.into name] slash d (.taken (name :: d) slash)
  | directory {links : Nat} {name : RawText} {rest : List Step} {slash : Bool} {d : Location}
      {spot : Spot} :
      Admits last name rest slash → fs.node? (name :: d) = some .directory →
      Follows fs last links rest slash (name :: d) spot →
      Follows fs last links (.into name :: rest) slash d spot
  /-- A link at the end that is not to be followed. -/
  | stop {links : Nat} {name : RawText} {slash : Bool} {d : Location} {t : Path} :
      Admits last name [] slash → fs.node? (name :: d) = some (.link t) → last.follows = false →
      Follows fs last links [.into name] slash d (.taken (name :: d) slash)
  | link {links : Nat} {name : RawText} {rest : List Step} {slash : Bool} {d : Location} {t : Path}
      {spot : Spot} :
      Admits last name rest slash → fs.node? (name :: d) = some (.link t) →
      (rest = [] → last.follows = true) →
      Follows fs last links (t.steps ++ rest)
        (if rest = [] then slash || t.endsInSlash else slash) (origin t d) spot →
      Follows fs last (links + 1) (.into name :: rest) slash d spot

section Follow

variable {last : LastStep} {links : Nat} {steps : List Step} {slash : Bool} {d : Location}
  {spot : Spot}

/-- How following goes on at a link. -/
def jump (fs : FileSystem) (last : LastStep) :
    (links : Nat) → Location → Path → List Step → Bool → Except FileError Spot
  | 0 => fun _ _ _ _ => .error .tooManyLinks
  | links + 1 => fun d t rest slash =>
    follow fs last links (t.steps ++ rest) (if rest = [] then slash || t.endsInSlash else slash)
      (origin t d)

theorem follow_eq (fs : FileSystem) (last : LastStep) (links : Nat) :
    follow fs last links = followWith fs last (jump fs last links) := by
  cases links <;> rfl

theorem followWith_into {go : Location → Path → List Step → Bool → Except FileError Spot}
    {name : RawText} {rest : List Step} (h : Admits last name rest slash) :
    followWith fs last go (.into name :: rest) slash d =
      match fs.node? (name :: d) with
      | none => if rest = [] then .ok (.free d name slash) else .error .notFound
      | some (.file _) =>
        if rest = [] then .ok (.taken (name :: d) slash) else .error .notADirectory
      | some .directory => followWith fs last go rest slash (name :: d)
      | some (.link t) =>
        if rest = [] ∧ !last.follows then .ok (.taken (name :: d) slash)
        else go d t rest slash := by
  exact (if_neg h.2).trans (if_neg (Nat.not_lt.mpr h.1))

theorem admits_of_followWith {go : Location → Path → List Step → Bool → Except FileError Spot}
    {name : RawText} {rest : List Step}
    (h : followWith fs last go (.into name :: rest) slash d = .ok spot) :
    Admits last name rest slash := by
  rw [followWith] at h
  split at h
  · cases h
  · next hmakes =>
    split at h
    · cases h
    · next hlen => exact ⟨Nat.le_of_not_lt hlen, hmakes⟩

/-- The steps up to the next link, given what is beyond it. -/
theorem follows_of_jump
    (hjump : ∀ d t rest slash, jump fs last links d t rest slash = .ok spot → ∃ n, links = n + 1 ∧
      Follows fs last n (t.steps ++ rest) (if rest = [] then slash || t.endsInSlash else slash)
        (origin t d) spot)
    (h : follow fs last links steps slash d = .ok spot) :
    Follows fs last links steps slash d spot := by
  rw [follow_eq] at h
  -- the rule for each step is the branch of the walk that the step takes
  induction steps generalizing d with
  | nil => cases h; exact .done
  | cons step rest ih =>
    cases step with
    | here => exact .here (ih h)
    | up => exact .up (ih h)
    | into name =>
      have ha := admits_of_followWith h
      rw [followWith_into ha] at h
      split at h
      · next hn =>
        -- nothing stands there, which is no error for the last step
        split at h
        · next hr => subst hr; cases h; exact .free ha hn
        · cases h
      · next hn =>
        -- a file stands there, which has to be the last step
        split at h
        · next hr => subst hr; cases h; exact .file ha hn
        · cases h
      · next hn => exact .directory ha hn (ih h)
      · next t hn =>
        split at h
        · next hstop =>
          -- a link that is not followed
          obtain ⟨rfl, hf⟩ := hstop
          cases h
          exact .stop ha hn (by simpa using hf)
        · next hgo =>
          -- a link that is followed, by the walk with one link less
          obtain ⟨n, rfl, hfollows⟩ := hjump _ _ _ _ h
          exact .link ha hn (by simpa using hgo) hfollows

theorem follows_of_follow (h : follow fs last links steps slash d = .ok spot) :
    Follows fs last links steps slash d spot := by
  induction links generalizing steps slash d with
  | zero => exact follows_of_jump (fun _ _ _ _ hj => by cases hj) h
  | succ links ih => exact follows_of_jump (fun _ _ _ _ hj => ⟨links, rfl, ih hj⟩) h

theorem follow_of_follows (h : Follows fs last links steps slash d spot) :
    follow fs last links steps slash d = .ok spot := by
  rw [follow_eq]
  induction h with
  | done => rfl
  | here _ ih => exact ih
  | up _ ih => exact ih
  | free ha hn =>
    -- a last name that is free
    rw [followWith_into ha, hn]
    rfl
  | file ha hn =>
    rw [followWith_into ha, hn]
    rfl
  | directory ha hn _ ih =>
    rw [followWith_into ha, hn]
    exact ih
  | stop ha hn hf =>
    -- a link that is stopped at
    rw [followWith_into ha, hn]
    simp [hf]
  | @link links _ rest _ _ _ _ ha hn hf _ ih =>
    -- a link is followed unless it is the last step and these are not
    have hgo : ¬(rest = [] ∧ !last.follows) := fun ⟨hr, hn⟩ => by simp [hf hr] at hn
    rw [followWith_into ha, hn]
    dsimp only
    rw [if_neg hgo, jump, follow_eq]
    exact ih

theorem follow_ok_iff :
    follow fs last links steps slash d = .ok spot ↔ Follows fs last links steps slash d spot :=
  ⟨follows_of_follow, follow_of_follows⟩

/-! ## Frame laws -/

/-- What is there stays where it is: only nodes that are there are passed on the way. -/
theorem Follows.of_keeps (h : Keeps fs fs') {l : Location} {s : Bool}
    (hf : Follows fs last links steps slash d (.taken l s)) :
    Follows fs' last links steps slash d (.taken l s) := by
  generalize hspot : Spot.taken l s = spot at hf ⊢
  induction hf with
  | done => exact .done
  | here _ ih => exact .here (ih hspot)
  | up _ ih => exact .up (ih hspot)
  | free => cases hspot
  | file ha hn =>
    obtain ⟨c', hn'⟩ := h.file hn
    exact .file ha hn'
  | directory ha hn _ ih => exact .directory ha (h.directory hn) (ih hspot)
  | stop ha hn hlast => exact .stop ha (h.link hn) hlast
  | link ha hn hlast _ ih => exact .link ha (h.link hn) hlast (ih hspot)

/-- Only a path that ends at a new file needs one: no step goes on from a file. -/
theorem Follows.of_filesWritten (h : FilesWritten fs fs') {l : Location} {s : Bool}
    (hl : fs.node? l ≠ none) (hf : Follows fs' last links steps slash d (.taken l s)) :
    Follows fs last links steps slash d (.taken l s) := by
  generalize hspot : Spot.taken l s = spot at hf ⊢
  induction hf with
  | done => exact .done
  | here _ ih => exact .here (ih hspot)
  | up _ ih => exact .up (ih hspot)
  | free => cases hspot
  | @file _ name _ d c ha hn =>
    -- the file is the old node at `l`, and so it was a file before
    cases hspot
    obtain ⟨n, hold⟩ := Option.ne_none_iff_exists'.mp hl
    obtain ⟨n', hn', rfl | ⟨c', _, rfl, _⟩⟩ := h.node _ n hold
    · obtain rfl := Option.some.inj (hn.symm.trans hn')
      exact .file ha hold
    · exact .file ha hold
  | directory ha hn _ ih => exact .directory ha (h.directory_iff.mp hn) (ih hspot)
  | stop ha hn hlast => exact .stop ha (h.link_iff.mp hn) hlast
  | link ha hn hlast _ ih => exact .link ha (h.link_iff.mp hn) hlast (ih hspot)

/-- Asking for a file to be made only makes following fail more often. -/
theorem Follows.of_makesFile {follows : Bool}
    (h : Follows fs ⟨follows, true⟩ links steps slash d spot) :
    Follows fs ⟨follows, false⟩ links steps slash d spot := by
  have hadmits : ∀ {name rest slash}, Admits ⟨follows, true⟩ name rest slash →
      Admits ⟨follows, false⟩ name rest slash := fun ha => ⟨ha.1, by simp⟩
  induction h with
  | done => exact .done
  | here _ ih => exact .here ih
  | up _ ih => exact .up ih
  | free ha hn => exact .free (hadmits ha) hn
  | file ha hn => exact .file (hadmits ha) hn
  | directory ha hn _ ih => exact .directory (hadmits ha) hn ih
  | stop ha hn hlast => exact .stop (hadmits ha) hn hlast
  | link ha hn hlast _ ih => exact .link (hadmits ha) hn hlast ih

end Follow

/-! ## Paths -/

section Spots

variable {last : LastStep} {p : Path} {l : Location} {s : Bool} {spot : Spot}

theorem spot_ok_iff : fs.spot last p = .ok spot ↔ fault? p = none ∧
    Follows fs last maxLinks p.steps p.endsInSlash (origin p fs.cwd) spot := by
  rw [FileSystem.spot, ← follow_ok_iff]
  cases fault? p with
  | none => exact (and_iff_right rfl).symm
  | some e => exact iff_of_false (by simp) fun h => by cases h.1

theorem spot_taken_of_keeps (h : Keeps fs fs') (hp : fs.spot last p = .ok (.taken l s)) :
    fs'.spot last p = .ok (.taken l s) := by
  rw [spot_ok_iff] at hp ⊢
  rw [h.cwd]
  exact hp.imp_right (.of_keeps h)

theorem spot_taken_of_filesWritten (h : FilesWritten fs fs') (hl : fs.node? l ≠ none)
    (hp : fs'.spot last p = .ok (.taken l s)) : fs.spot last p = .ok (.taken l s) := by
  rw [spot_ok_iff] at hp ⊢
  rw [h.cwd] at hp
  exact hp.imp_right (.of_filesWritten h hl)

theorem spot_of_makesFile {follows : Bool} (h : fs.spot ⟨follows, true⟩ p = .ok spot) :
    fs.spot ⟨follows, false⟩ p = .ok spot := by
  rw [spot_ok_iff] at h ⊢
  exact h.imp_right .of_makesFile

end Spots

end Highlight.FileSystem
