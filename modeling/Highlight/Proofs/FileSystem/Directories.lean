import Highlight.Proofs.FileSystem.Operations
import Highlight.Proofs.Path

/-!
# Making directories

Making directories leaves every node as it is, also where it fails
(`directoriesMade_makeDirectories`), and does nothing where the directory is there
(`makeDirectories_of_isDirectory`). Otherwise the directory is a new one without entries
(`makeDirectories_new`), as long as the path leads up to directories that are there only: for
`missing/..` a directory is made, but the path leads to an old one, and with it to old files
(`locate_of_makeDirectories`).
-/

namespace Highlight.FileSystem

variable {fs fs' : FileSystem} {p : Path} {l : Location}

/-! ## Nodes are kept -/

theorem makeDirectory_cases (h : fs.makeDirectory p = .ok fs') :
    ∃ l, fs.LeadsTo p l ∧ fs.node? l = none ∧ fs' = fs.set l .directory := by
  rw [makeDirectory] at h
  split at h
  · cases h
  · next d name s hs =>
    cases h
    have hf := (spot_ok_iff.mp hs).2
    exact ⟨name :: d, hf.leads (Or.inr ⟨d, name, s, rfl⟩), hf.node?_free, rfl⟩
  · cases h

theorem directoriesMade_makeDirectory (h : fs.makeDirectory p = .ok fs') :
    DirectoriesMade fs fs' := by
  obtain ⟨l, _, hn, rfl⟩ := makeDirectory_cases h
  exact directoriesMade_set hn

theorem grounded_makeDirectory (hg : Grounded fs) (h : fs.makeDirectory p = .ok fs') :
    Grounded fs' := by
  obtain ⟨l, hleads, hn, rfl⟩ := makeDirectory_cases h
  exact hg.set (hg.parent_of_leads hleads (node?_origin hg.cwd p)) (ne_root_of_none hn)
    (Or.inl rfl)

/-- What making one directory preserves holds after making a chain of them, also where it fails. -/
theorem makeChain_induction {P : FileSystem → Prop} (paths : List Path)
    (hstep : ∀ fs fs' p, p ∈ paths → P fs → fs.makeDirectory p = .ok fs' → P fs') (h : P fs) :
    P (fs.makeChain paths).2 := by
  induction paths generalizing fs with
  | nil => exact h
  | cons p parents ih =>
    have hp : p ∈ p :: parents := List.mem_cons_self
    rw [makeChain]
    split
    · -- the directory itself can be made
      next hmade => exact hstep _ _ _ hp h hmade
    · -- a parent is missing, so the parents are made before the second attempt
      have hparents := ih (fun _ _ _ hq => hstep _ _ _ (List.mem_cons_of_mem _ hq)) h
      split
      · next heq => rwa [heq] at hparents
      · next heq =>
        rw [heq] at hparents
        split
        · next hmade => exact hstep _ _ _ hp hparents hmade
        · split <;> exact hparents
    · -- it is there already, or cannot be made at all
      split <;> exact h

theorem directoriesMade_makeChain (fs : FileSystem) (paths : List Path) :
    DirectoriesMade fs (fs.makeChain paths).2 :=
  makeChain_induction _ (fun _ _ _ _ h hmade => h.trans (directoriesMade_makeDirectory hmade))
    (.refl fs)

theorem directoriesMade_makeDirectories (fs : FileSystem) (p : Path) :
    DirectoriesMade fs (fs.makeDirectories p).2 := directoriesMade_makeChain fs p.ancestors

theorem grounded_makeDirectories (hg : Grounded fs) (p : Path) :
    Grounded (fs.makeDirectories p).2 :=
  makeChain_induction _ (fun _ _ _ _ h hmade => grounded_makeDirectory h hmade) hg

/-! ## The directory that is asked for -/

/-- What leads somewhere does so too if a link at the end is left alone. -/
theorem Follows.exists_taken {links : Nat} {steps : List Step} {slash s : Bool} {d : Location}
    (h : Follows fs ⟨true, false⟩ links steps slash d (.taken l s)) :
    ∃ l' s', Follows fs ⟨false, false⟩ links steps slash d (.taken l' s') := by
  -- a name may be admitted without the rule for last steps on slashes
  have hadmits : ∀ {name rest slash}, Admits ⟨true, false⟩ name rest slash →
      Admits ⟨false, false⟩ name rest slash := fun ha => ⟨ha.1, by simp⟩
  generalize hspot : Spot.taken l s = spot at h
  induction h with
  | done => exact ⟨_, _, .done⟩
  | here _ ih =>
    obtain ⟨l', s', h⟩ := ih hspot
    exact ⟨l', s', .here h⟩
  | up _ ih =>
    obtain ⟨l', s', h⟩ := ih hspot
    exact ⟨l', s', .up h⟩
  | free => cases hspot
  | file ha hn => exact ⟨_, _, .file (hadmits ha) hn⟩
  | directory ha hn _ ih =>
    obtain ⟨l', s', h⟩ := ih hspot
    exact ⟨l', s', .directory (hadmits ha) hn h⟩
  | stop _ _ hlast => cases hlast
  | @link _ _ rest _ _ _ _ ha hn _ _ ih =>
    by_cases hr : rest = []
    · -- the link is the last step, and is stopped at instead of being followed
      subst hr
      exact ⟨_, _, .stop (hadmits ha) hn rfl⟩
    · -- a link on the way is followed as before
      obtain ⟨l', s', h⟩ := ih hspot
      exact ⟨l', s', .link (hadmits ha) hn (absurd · hr) h⟩

theorem makeDirectory_of_isDirectory (h : fs.isDirectory p = true) :
    fs.makeDirectory p = .error .alreadyExists := by
  obtain ⟨l, hl⟩ := isDirectory_iff.mp h
  obtain ⟨⟨s, hs⟩, _⟩ := locate_directory_iff.mp hl
  obtain ⟨hfault, hf⟩ := spot_ok_iff.mp hs
  obtain ⟨l', s', hf'⟩ := hf.exists_taken
  rw [makeDirectory, spot_ok_iff.mpr ⟨hfault, hf'⟩]

theorem makeChain_of_isDirectory (h : fs.isDirectory p = true) (bound : Nat) :
    fs.makeChain (Path.ancestors.go bound p) = (.ok (), fs) := by
  cases bound with
  | zero => rfl
  | succ bound =>
    rw [Path.ancestors.go]
    split
    · rw [makeChain, makeDirectory_of_isDirectory h]
      exact if_pos ⟨rfl, h⟩
    · rfl

/-- Where the directory is there already, nothing is made. -/
theorem makeDirectories_of_isDirectory (h : fs.isDirectory p = true) :
    fs.makeDirectories p = (.ok (), fs) := makeChain_of_isDirectory h _

/-- How a chain of directories comes to be made. -/
theorem makeChain_cons_ok {parents : List Path}
    (h : fs.makeChain (p :: parents) = (.ok (), fs')) :
    fs.makeDirectory p = .ok fs' ∨ fs.isDirectory p = true ∧ fs' = fs ∨
      ∃ fs₁, fs.makeDirectory p = .error .notFound ∧ fs.makeChain parents = (.ok (), fs₁) ∧
        (fs₁.makeDirectory p = .ok fs' ∨
          fs₁.makeDirectory p = .error .alreadyExists ∧ fs₁.isDirectory p = true ∧ fs' = fs₁) := by
  rw [makeChain] at h
  split at h
  · next hmade => cases h; exact Or.inl hmade
  · next hmissing =>
    -- something on the way was missing, and the parents were made
    split at h
    · cases h
    · next fs₁ hparents =>
      refine Or.inr (Or.inr ⟨fs₁, hmissing, hparents, ?_⟩)
      split at h
      · next hmade => cases h; exact Or.inl hmade
      · next e herror =>
        -- the second attempt failed, which is all right if there is a directory by now
        split at h
        · next hthere =>
          cases h
          exact Or.inr ⟨hthere.1 ▸ herror, hthere.2, rfl⟩
        · cases h
  · -- the first attempt failed in another way, which is all right in the same case
    split at h
    · next hthere => cases h; exact Or.inr (Or.inl ⟨hthere.2, rfl⟩)
    · cases h

/-- A name that was free leads to the file or the directory that is made there. -/
theorem Follows.taken_of_free {links : Nat} {steps : List Step} {slash s makesFile : Bool}
    {o d : Location} {name : RawText} {n : Node} (hnode : ∀ t, n ≠ .link t)
    (h : Follows fs ⟨false, makesFile⟩ links steps slash o (.free d name s)) :
    Follows (fs.set (name :: d) n) ⟨true, false⟩ links steps slash o (.taken (name :: d) s) := by
  have hkeep : ∀ {l n'}, fs.node? l = some n' → (fs.set (name :: d) n).node? l = some n' :=
    node?_set_of_none h.node?_free n
  have hadmits : ∀ {name rest slash}, Admits ⟨false, makesFile⟩ name rest slash →
      Admits ⟨true, false⟩ name rest slash := fun ha => ⟨ha.1, by simp⟩
  -- the same way is followed to the place that was free, where the node stands now
  generalize hspot : Spot.free d name s = spot at h
  induction h with
  | done => cases hspot
  | here _ ih => exact .here (ih hspot)
  | up _ ih => exact .up (ih hspot)
  | free ha _ =>
    cases hspot
    have hset : (fs.set (name :: d) n).node? (name :: d) = some n :=
      node?_set_self (List.cons_ne_nil name d) n
    cases n with
    | file c => exact .file (hadmits ha) hset
    | directory => exact .directory (hadmits ha) hset .done
    | link t => exact absurd rfl (hnode t)
  | file => cases hspot
  | directory ha hn _ ih => exact .directory (hadmits ha) (hkeep hn) (ih hspot)
  | stop => cases hspot
  | link ha hn _ _ ih => exact .link (hadmits ha) (hkeep hn) (fun _ => rfl) (ih hspot)

/-- What is made is a new directory, and the path leads to it. -/
theorem made_of_makeDirectory (h : fs.makeDirectory p = .ok fs') : ∃ d, fs.node? d = none ∧
    fs' = fs.set d .directory ∧ fs'.locate p = .ok (d, .directory) := by
  rw [makeDirectory] at h
  split at h
  · cases h
  · next d name s hs =>
    -- only a free place is taken
    cases h
    obtain ⟨hfault, hf⟩ := spot_ok_iff.mp hs
    have hspot := spot_ok_iff.mpr ⟨hfault, hf.taken_of_free (n := .directory) (by simp)⟩
    exact ⟨name :: d, hf.node?_free, rfl, locate_directory_iff.mpr
      ⟨⟨s, hspot⟩, node?_set_self (List.cons_ne_nil name d) _⟩⟩
  · cases h

/-- The path leads to a directory of `fs'` that is new since `fs` and has no entries. -/
structure LeadsToNew (fs fs' : FileSystem) (p : Path) (d : Location) : Prop where
  locate : fs'.locate p = .ok (d, .directory)
  new : fs.node? d = none
  empty : ∀ name, fs'.node? (name :: d) = none

theorem Grounded.node?_cons_of_none {d : Location} (hg : Grounded fs) (hd : fs.node? d = none)
    (name : RawText) : fs.node? (name :: d) = none := by
  cases hn : fs.node? (name :: d) with
  | none => rfl
  | some n => rw [hg.parent name d n hn] at hd; cases hd

theorem leadsToNew_of_makeDirectory (hg : Grounded fs) (h : fs.makeDirectory p = .ok fs') :
    ∃ d, LeadsToNew fs fs' p d := by
  obtain ⟨d, hnone, rfl, hlocate⟩ := made_of_makeDirectory h
  refine ⟨d, hlocate, hnone, fun entry => ?_⟩
  rw [node?_set_ne (ne_root_of_none hnone) _ (by simp)]
  exact hg.node?_cons_of_none hnone entry

/-- A step into a name that is free leads to where nothing stands. -/
theorem Leads.into_none {d : Location} {name : RawText} (hnone : fs.node? (name :: d) = none)
    (h : Leads fs d [.into name] l) : fs.node? l = none := by
  cases h with
  | last _ => exact hnone
  | directory hn _ => rw [hnone] at hn; cases hn
  | link hn _ => rw [hnone] at hn; cases hn

/-- Wherever a path leads up, it leads to a directory that is there. -/
def UpIsThere (fs : FileSystem) (p : Path) : Prop :=
  ∀ q ∈ p.ancestors, q.moves.getLast? = some .up → fs.isDirectory q = true

theorem upIsThere_of_not_mem (h : .up ∉ p.steps) : UpIsThere fs p := by
  intro q hq hup
  have hprefix : q.moves <+: p.moves := Path.moves_prefix_of_mem_ancestors hq
  have hmem : .up ∈ p.moves := hprefix.subset (List.mem_of_getLast? hup)
  exact absurd (List.mem_filter.mp hmem).1 h

/--
The directory is a new one if it was missing. What is made for a path without its last step is new
and empty, so that a step from there finds nothing and the whole path is made in turn, unless the
step leads up.
-/
theorem makeChain_new (hg : Grounded fs) {bound : Nat}
    (hup : ∀ q ∈ Path.ancestors.go bound p, q.moves.getLast? = some .up → fs.isDirectory q = true)
    (h : fs.makeChain (Path.ancestors.go bound p) = (.ok (), fs')) :
    fs.isDirectory p = true ∨ Path.ancestors.go bound p = [] ∨ ∃ d, LeadsToNew fs fs' p d := by
  induction bound generalizing p fs' with
  | zero => exact Or.inr (Or.inl rfl)
  | succ bound ih =>
    rw [Path.ancestors.go] at h hup ⊢
    split at h
    · next q hq =>
      simp only [hq] at hup
      rw [List.forall_mem_cons] at hup
      rcases makeChain_cons_ok h with hmade | ⟨hthere, _⟩ | ⟨fs₁, hmissing, hparents, hrest⟩
      · -- made at once
        exact Or.inr (Or.inr (leadsToNew_of_makeDirectory hg hmade))
      · -- there already
        exact Or.inl hthere
      · have hkept : DirectoriesMade fs fs₁ := by
          have hkept := directoriesMade_makeChain fs (Path.ancestors.go bound q)
          rwa [hparents] at hkept
        have hg₁ : Grounded fs₁ := by
          have hg₁ : Grounded (fs.makeChain (Path.ancestors.go bound q)).2 :=
            makeChain_induction _ (fun _ _ _ _ h hmade => grounded_makeDirectory h hmade) hg
          rwa [hparents] at hg₁
        -- made after its parents
        rcases hrest with hmade | ⟨hthere, hdir, rfl⟩
        · obtain ⟨d, hd⟩ := leadsToNew_of_makeDirectory hg₁ hmade
          exact Or.inr (Or.inr ⟨d, hd.locate, hkept.none_of_none hd.new, hd.empty⟩)
        · -- the directory was missing at first, so its parents cannot all have been there
          have hchanged : fs' ≠ fs := by
            rintro rfl
            rw [hmissing] at hthere
            cases hthere
          rcases ih hup.2 hparents with hparent | hnone | ⟨m, hm⟩
          · rw [makeChain_of_isDirectory hparent] at hparents
            exact absurd (Prod.mk.inj hparents).2.symm hchanged
          · rw [hnone] at hparents
            exact absurd (Prod.mk.inj hparents).2.symm hchanged
          · have hempty : q.bytes ≠ [] := by
              intro hempty
              have hnone : Path.ancestors.go bound ⟨""⟩ = [] := by cases bound <;> rfl
              obtain rfl : q = ⟨""⟩ := Path.eq_empty hempty
              rw [hnone] at hparents
              exact hchanged (Prod.mk.inj hparents).2.symm
            obtain ⟨step, hstep⟩ := Path.moves_parent hq hempty
            obtain ⟨l, hl⟩ := isDirectory_iff.mp hdir
            -- the way to the directory runs over its parent, which is a new one
            have hway : Leads fs' (origin p fs'.cwd) p.moves l :=
              Leads.of_filter (a := []) (leadsTo_of_locate hl)
            have hparent : Leads fs' (origin q fs'.cwd) q.moves m :=
              Leads.of_filter (a := []) (leadsTo_of_locate hm.locate)
            rw [origin, Path.isAbsolute_parent hq hempty] at hparent
            rw [hstep] at hway
            obtain ⟨m', hm', hlast⟩ := hway.split
            obtain rfl := hm'.unique hparent
            cases step with
            | here =>
              -- steps to the same directory do not count as moves
              have hmem : Step.here ∈ p.moves := by simp [hstep]
              exact absurd (List.mem_filter.mp hmem).2 (by simp)
            | up => exact Or.inl (hup.1 (by simp [hstep]))
            | into name =>
              -- a new parent is empty, so no entry of it can have been there
              have hnode := node?_of_locate hl
              rw [hlast.into_none (hm.empty name)] at hnode
              cases hnode
    · exact Or.inr (Or.inl (by simp))

theorem makeDirectories_new (hg : Grounded fs) (hup : UpIsThere fs p)
    (h : fs.makeDirectories p = (.ok (), fs')) :
    fs' = fs ∨ ∃ l, LeadsToNew fs fs' p l := by
  rcases makeChain_new hg hup h with hthere | hnone | hnew
  · rw [makeDirectories_of_isDirectory hthere] at h
    exact Or.inl (Prod.mk.inj h).2.symm
  · rw [makeDirectories, Path.ancestors, hnone] at h
    exact Or.inl (Prod.mk.inj h).2.symm
  · exact Or.inr hnew

/-- Making a directory makes no path into it lead to an old file that it did not lead to before. -/
theorem locate_of_makeDirectories {name : RawText} {c : ByteArray} (hg : Grounded fs)
    (hp : fs.isDirectory p = true ∨ .up ∉ p.steps) (hname : Path.IsName name)
    (hl : fs.node? l = some (.file c)) (h : fs.makeDirectories p = (.ok (), fs'))
    (hfile : fs'.locate (p.join ⟨name⟩) = .ok (l, .file c)) :
    fs.locate (p.join ⟨name⟩) = .ok (l, .file c) := by
  have hnew : fs' = fs ∨ ∃ m, LeadsToNew fs fs' p m := by
    rcases hp with hdir | hup
    · -- the directory is there, so none is made
      rw [makeDirectories_of_isDirectory hdir] at h
      cases h
      exact Or.inl rfl
    · exact makeDirectories_new hg (upIsThere_of_not_mem hup) h
  rcases hnew with rfl | ⟨m, hm⟩
  · exact hfile
  · -- the file was there before, but below a directory that is new and has no entries
    have hmade := directoriesMade_makeDirectories fs p
    rw [h] at hmade
    have hway : fs'.LeadsTo (p.join ⟨name⟩) l := leadsTo_of_locate hfile
    rw [LeadsTo, origin, Path.isAbsolute_join hname, Path.steps_join hname] at hway
    obtain ⟨m', hm', hlast⟩ := hway.split
    obtain rfl := hm'.unique (leadsTo_of_locate hm.locate)
    have hnode := hmade.node l _ hl
    rw [hlast.into_none (hm.empty name)] at hnode
    cases hnode

end Highlight.FileSystem
