import Highlight.Proofs.FileSystem.Operations

/-!
# The entries of a directory

A path into a directory and then to a name is followed in two parts (`Follows.split`): the steps
that enter the directory, and the one that looks the name up there. Which directory is entered
depends on directories and links alone, so that files may come and go meanwhile (`Enters.of_ways`).
A file written under such a path is set at the entry of that name (`write_entry`), one that is
removed is taken away from there (`remove_cases`), and listing tells the entries that are there
(`mem_entries`).
-/

namespace Highlight.FileSystem

variable {fs fs' : FileSystem} {p : Path} {d l : Location} {name : RawText}

/-! ## Taking one node away -/

theorem find_filter_ne (nodes : List (Location × Node)) (l m : Location) :
    find (nodes.filter (·.1 ≠ l)) m = if l = m then none else find nodes m := by
  induction nodes with
  | nil => simp [find]
  | cons e nodes ih =>
    obtain ⟨k, n⟩ := e
    by_cases hk : k = l
    · rw [List.filter_cons_of_neg (by simp [hk]), ih, find, hk]
      split <;> rfl
    · rw [List.filter_cons_of_pos (by simp [hk]), find, find, ih]
      by_cases hm : k = m
      · rw [if_pos hm, if_pos hm, if_neg (fun h => hk (hm.trans h.symm))]
      · rw [if_neg hm, if_neg hm]

theorem node?_erase (hl : l ≠ []) (m : Location) :
    (fs.erase l).node? m = if l = m then none else fs.node? m := by
  rw [node?, node?, erase]
  by_cases hm : m = []
  · rw [if_pos hm, if_pos hm, if_neg (fun h => hl (h.trans hm))]
  · rw [if_neg hm, if_neg hm, find_filter_ne]

/-- A file system stays grounded when what is no directory is taken away. -/
theorem Grounded.erase (hg : Grounded fs) (hl : l ≠ []) (hn : fs.node? l ≠ some .directory) :
    Grounded (fs.erase l) := by
  have hkeep : ∀ m, fs.node? m = some .directory → (fs.erase l).node? m = some .directory := by
    intro m hm
    rw [node?_erase hl, if_neg (by rintro rfl; exact hn hm), hm]
  refine ⟨hkeep _ hg.cwd, ?_⟩
  intro name m n hm
  rw [node?_erase hl] at hm
  split at hm
  · cases hm
  · exact hkeep _ (hg.parent name m n hm)

/-- `fs'` is `fs` without what stood at the locations. -/
structure Cleared (fs : FileSystem) (ls : List Location) (fs' : FileSystem) : Prop where
  cwd : fs'.cwd = fs.cwd
  node : ∀ m, fs'.node? m = if m ∈ ls then none else fs.node? m

theorem Cleared.refl (fs : FileSystem) : Cleared fs [] fs := ⟨rfl, fun m => by simp⟩

/-- Where nothing stands there is nothing to clear. -/
theorem Cleared.cons_of_none {ls : List Location} (h : Cleared fs ls fs')
    (hl : fs.node? l = none) : Cleared fs (l :: ls) fs' := by
  refine ⟨h.cwd, fun m => ?_⟩
  rw [h.node]
  by_cases hm : m = l
  · rw [hm, if_pos List.mem_cons_self, hl, ite_self]
  · simp [hm]

theorem Cleared.cons_of_erase {ls : List Location} (hl : l ≠ []) (h : Cleared (fs.erase l) ls fs') :
    Cleared fs (l :: ls) fs' := by
  refine ⟨h.cwd, fun m => ?_⟩
  rw [h.node, node?_erase hl]
  by_cases hm : m = l
  · rw [hm, if_pos rfl, ite_self, if_pos List.mem_cons_self]
  · simp [hm, Ne.symm hm]

theorem Cleared.other {ls : List Location} (h : Cleared fs ls fs') (m : Location) (hm : m ∉ ls) :
    fs'.node? m = fs.node? m := by
  rw [h.node, if_neg hm]

/-- `fs'` is `fs` with files at the locations. -/
structure Filled (fs : FileSystem) (ls : List Location) (fs' : FileSystem) : Prop where
  cwd : fs'.cwd = fs.cwd
  file : ∀ m ∈ ls, ∃ c, fs'.node? m = some (.file c)
  other : ∀ m, m ∉ ls → fs'.node? m = fs.node? m

theorem Filled.refl (fs : FileSystem) : Filled fs [] fs := ⟨rfl, by simp, fun _ _ => rfl⟩

theorem Filled.cons_of_set {ls : List Location} {c : ByteArray} (hl : l ≠ [])
    (h : Filled (fs.set l (.file c)) ls fs') : Filled fs (l :: ls) fs' := by
  refine ⟨h.cwd, ?_, ?_⟩
  · intro m hm
    by_cases hmem : m ∈ ls
    · exact h.file m hmem
    · obtain rfl : m = l := (List.mem_cons.mp hm).resolve_right hmem
      exact ⟨c, (h.other m hmem).trans (node?_set_self hl _)⟩
  · intro m hm
    rw [List.mem_cons, not_or] at hm
    rw [h.other m hm.2, node?_set_ne hl _ (Ne.symm hm.1)]

/-! ## Listing -/

theorem mem_map_fst_iff {nodes : List (Location × Node)} :
    l ∈ nodes.map (·.1) ↔ ∃ n, find nodes l = some n := by
  induction nodes with
  | nil => simp [find]
  | cons e nodes ih =>
    obtain ⟨k, n⟩ := e
    rw [List.map_cons, List.mem_cons, ih, find]
    by_cases hk : k = l
    · simp [hk]
    · simp [hk, Ne.symm hk]

/-- The names that are listed are those under which something stands. -/
theorem mem_entries : name ∈ fs.entries d ↔ ∃ n, fs.node? (name :: d) = some n := by
  rw [node?, if_neg (List.cons_ne_nil name d), ← mem_map_fst_iff, entries, List.mem_eraseDups,
    List.mem_filterMap, List.mem_map]
  constructor
  · rintro ⟨⟨l, n⟩, hmem, hname⟩
    cases l with
    -- a node counts as an entry only if its location is its name in the directory
    | nil => cases hname
    | cons x l =>
      refine ⟨(x :: l, n), hmem, ?_⟩
      rw [nameIn?] at hname
      split at hname
      · next hl => rw [hl, Option.some.inj hname]
      · cases hname
  · rintro ⟨e, hmem, he⟩
    refine ⟨e, hmem, ?_⟩
    rw [he, nameIn?, if_pos rfl]

theorem nodup_eraseDups {α : Type} [BEq α] [LawfulBEq α] (xs : List α) : xs.eraseDups.Nodup := by
  -- by the length, since what is left of the tail is no tail itself
  induction hn : xs.length using Nat.strongRecOn generalizing xs with
  | ind n ih =>
    cases xs with
    | nil => exact List.nodup_nil
    | cons x xs =>
      rw [List.eraseDups_cons, List.nodup_cons, List.mem_eraseDups]
      have hle := List.length_filter_le (fun y => !y == x) xs
      refine ⟨by simp, ih _ ?_ _ rfl⟩
      rw [← hn, List.length_cons]
      omega

theorem nodup_entries (fs : FileSystem) (d : Location) : (fs.entries d).Nodup :=
  nodup_eraseDups _

theorem list_of_locate (h : fs.locate p = .ok (d, .directory)) :
    fs.list p = .ok (fs.entries d) := by
  rw [list, h]

/-! ## Files that come and go -/

/-- What is no file is the same in `fs'` as it was in `fs`. -/
structure KeepsWays (fs fs' : FileSystem) : Prop where
  cwd : fs'.cwd = fs.cwd
  node : ∀ l n, (∀ c, n ≠ .file c) → fs.node? l = some n → fs'.node? l = some n

/-- The entry of a name is a file, if there is one. -/
def FileAt (fs : FileSystem) (l : Location) : Prop :=
  ∀ n, fs.node? l = some n → ∃ c, n = .file c

theorem FileAt.cases (h : FileAt fs l) :
    fs.node? l = none ∨ ∃ c, fs.node? l = some (.file c) := by
  cases hn : fs.node? l with
  | none => exact Or.inl rfl
  | some n =>
    obtain ⟨c, rfl⟩ := h n hn
    exact Or.inr ⟨c, rfl⟩

theorem Cleared.keepsWays {ls : List Location} (h : Cleared fs ls fs')
    (hls : ∀ l ∈ ls, FileAt fs l) : KeepsWays fs fs' := by
  refine ⟨h.cwd, fun l n hn hl => ?_⟩
  rw [h.node, if_neg, hl]
  intro hmem
  obtain ⟨c, hc⟩ := hls l hmem n hl
  exact hn c hc

theorem Cleared.fileAt {ls : List Location} (h : Cleared fs ls fs') (hl : FileAt fs l) :
    FileAt fs' l := by
  intro n hn
  rw [h.node] at hn
  split at hn
  · cases hn
  · exact hl n hn

theorem Cleared.grounded {ls : List Location} (h : Cleared fs ls fs')
    (hls : ∀ l ∈ ls, FileAt fs l) (hg : Grounded fs) : Grounded fs' := by
  have hkeep : ∀ m, fs.node? m = some .directory → fs'.node? m = some .directory := fun m =>
    (h.keepsWays hls).node m _ (by simp)
  refine ⟨?_, fun name m n hn => ?_⟩
  · rw [h.cwd]
    exact hkeep _ hg.cwd
  · rw [h.node] at hn
    split at hn
    · cases hn
    · exact hkeep _ (hg.parent name m n hn)

theorem Filled.keepsWays {ls : List Location} (h : Filled fs ls fs')
    (hls : ∀ l ∈ ls, FileAt fs l) : KeepsWays fs fs' := by
  refine ⟨h.cwd, fun l n hn hl => ?_⟩
  rw [h.other, hl]
  intro hmem
  obtain ⟨c, hc⟩ := hls l hmem n hl
  exact hn c hc

theorem Filled.fileAt {ls : List Location} (h : Filled fs ls fs') (hl : FileAt fs l) :
    FileAt fs' l := by
  intro n hn
  by_cases hmem : l ∈ ls
  · obtain ⟨c, hc⟩ := h.file l hmem
    exact ⟨c, Option.some.inj (hn.symm.trans hc)⟩
  · rw [h.other l hmem] at hn
    exact hl n hn

/-! ## Entering a directory -/

/-- The steps lead from `o` into the directory `d`, whatever comes after them. -/
structure Enters (fs : FileSystem) (links : Nat) (steps : List Step) (o d : Location) : Prop where
  directory : fs.node? d = some .directory
  follows : ∀ slash, ∃ s, Follows fs ⟨true, false⟩ links steps slash o (.taken d s)

section Enters

variable {last : LastStep} {links : Nat} {steps a b : List Step} {slash : Bool} {o : Location}
  {spot : Spot}

theorem admits_middle {last last' : LastStep} {rest rest' : List Step} {slash' : Bool}
    (h : Admits last name rest slash) (hrest : rest' ≠ []) : Admits last' name rest' slash' :=
  ⟨h.1, fun hend => hrest hend.1⟩

/-- Where a slash may stand at the end, it does not matter to where the steps lead. -/
theorem Follows.exists_slash (h : Follows fs ⟨true, false⟩ links steps slash o (.taken d s))
    (slash' : Bool) : ∃ s', Follows fs ⟨true, false⟩ links steps slash' o (.taken d s') := by
  have hadmits : ∀ {name rest slash slash'}, Admits ⟨true, false⟩ name rest slash →
      Admits ⟨true, false⟩ name rest slash' := fun ha => ⟨ha.1, by simp⟩
  generalize hspot : Spot.taken d s = spot at h
  induction h generalizing slash' with
  | done => cases hspot; exact ⟨_, .done⟩
  | here _ ih => exact (ih slash' hspot).imp fun _ => .here
  | up _ ih => exact (ih slash' hspot).imp fun _ => .up
  | free => cases hspot
  | file ha hn => cases hspot; exact ⟨_, .file (hadmits ha) hn⟩
  | directory ha hn _ ih => exact (ih slash' hspot).imp fun _ => .directory (hadmits ha) hn
  | stop _ _ hlast => cases hlast
  | link ha hn hlast _ ih => exact (ih _ hspot).imp fun _ => .link (hadmits ha) hn hlast

theorem Enters.unique (h : Enters fs links steps o d) {links' : Nat} {d' : Location}
    (h' : Enters fs links' steps o d') : d = d' := by
  obtain ⟨s, hf⟩ := h.follows false
  obtain ⟨s', hf'⟩ := h'.follows false
  exact (hf.leads (Or.inl rfl)).unique (hf'.leads (Or.inl rfl))

/-- **A way that is followed is followed in two parts.** The first enters a directory. -/
theorem Follows.split (hg : Grounded fs) (ho : fs.node? o = some .directory) (hb : b ≠ [])
    (h : Follows fs last links (a ++ b) slash o spot) :
    ∃ d n, Enters fs links a o d ∧ Follows fs last n b slash d spot := by
  -- the way is followed to where `b` begins; until then each step is the first one of `a`
  generalize hsteps : a ++ b = steps at h
  induction h generalizing a with
  | done => exact absurd (List.append_eq_nil_iff.mp hsteps).2 hb
  | @here links rest slash o spot h ih =>
    rcases List.append_eq_cons_iff.mp hsteps with ⟨rfl, rfl⟩ | ⟨a, rfl, rfl⟩
    · -- nothing of the first part is left, so the way goes on from here
      exact ⟨o, _, ⟨ho, fun _ => ⟨_, .done⟩⟩, .here h⟩
    · -- the step still belongs to the first part
      obtain ⟨d, n, henters, hrest⟩ := ih ho rfl
      exact ⟨d, n, ⟨henters.directory, fun s => (henters.follows s).imp fun _ => .here⟩, hrest⟩
  | @up links rest slash o spot h ih =>
    rcases List.append_eq_cons_iff.mp hsteps with ⟨rfl, rfl⟩ | ⟨a, rfl, rfl⟩
    · exact ⟨o, _, ⟨ho, fun _ => ⟨_, .done⟩⟩, .up h⟩
    · obtain ⟨d, n, henters, hrest⟩ := ih (hg.tail ho) rfl
      exact ⟨d, n, ⟨henters.directory, fun s => (henters.follows s).imp fun _ => .up⟩, hrest⟩
  | @free links name slash o ha hn =>
    rcases List.append_eq_cons_iff.mp hsteps with ⟨rfl, rfl⟩ | ⟨a, rfl, hrest⟩
    · -- the way ends at this name, so nothing else is left of the steps
      exact ⟨o, links, ⟨ho, fun _ => ⟨_, .done⟩⟩, .free ha hn⟩
    · exact absurd (List.append_eq_nil_iff.mp hrest.symm).2 hb
  | @file links name slash o c ha hn =>
    rcases List.append_eq_cons_iff.mp hsteps with ⟨rfl, rfl⟩ | ⟨a, rfl, hrest⟩
    · -- a file ends the way as well
      exact ⟨o, links, ⟨ho, fun _ => ⟨_, .done⟩⟩, .file ha hn⟩
    · exact absurd (List.append_eq_nil_iff.mp hrest.symm).2 hb
  | @directory links name rest slash o spot ha hn h ih =>
    rcases List.append_eq_cons_iff.mp hsteps with ⟨rfl, rfl⟩ | ⟨a, rfl, rfl⟩
    · exact ⟨o, _, ⟨ho, fun _ => ⟨_, .done⟩⟩, .directory ha hn h⟩
    · obtain ⟨d, n, henters, hrest⟩ := ih hn rfl
      refine ⟨d, n, ⟨henters.directory, fun s => ?_⟩, hrest⟩
      exact (henters.follows s).imp fun _ => .directory ⟨ha.1, by simp⟩ hn
  | @stop links name slash o t ha hn hlast =>
    rcases List.append_eq_cons_iff.mp hsteps with ⟨rfl, rfl⟩ | ⟨a, rfl, hrest⟩
    · -- the link is not followed, so it is the last step
      exact ⟨o, links, ⟨ho, fun _ => ⟨_, .done⟩⟩, .stop ha hn hlast⟩
    · exact absurd (List.append_eq_nil_iff.mp hrest.symm).2 hb
  | @link links name rest slash o t spot ha hn hlast h ih =>
    rcases List.append_eq_cons_iff.mp hsteps with ⟨rfl, rfl⟩ | ⟨a, rfl, rfl⟩
    · exact ⟨o, _, ⟨ho, fun _ => ⟨_, .done⟩⟩, .link ha hn hlast h⟩
    · -- the steps of the link come before what is left of the first part
      rw [if_neg (by simp [hb])] at ih
      obtain ⟨d, n, henters, hrest⟩ := ih (node?_origin ho t) (List.append_assoc _ _ _)
      refine ⟨d, n, ⟨henters.directory, fun s => ?_⟩, hrest⟩
      exact (henters.follows _).imp fun _ => .link ⟨ha.1, by simp⟩ hn (fun _ => rfl)

/-- From the directory that is entered on, following goes on as if it had begun there. -/
theorem Enters.follow_append (h : Enters fs links a o d) (last : LastStep) (hb : b ≠ []) :
    ∃ n, follow fs last links (a ++ b) slash o = follow fs last n b slash d := by
  -- along the steps of the first part, which are not the last ones, as others follow
  have hdirectory := h.directory
  obtain ⟨slash', s, hf⟩ : ∃ slash' s, Follows fs ⟨true, false⟩ links a slash' o (.taken d s) :=
    ⟨false, h.follows false⟩
  clear h
  generalize hspot : Spot.taken d s = spot at hf
  induction hf with
  | done => cases hspot; exact ⟨_, rfl⟩
  | here _ ih =>
    -- a step to the same directory takes none of the links
    obtain ⟨n, hn⟩ := ih hspot
    refine ⟨n, ?_⟩
    rw [← hn, follow_eq]
    rfl
  | up _ ih =>
    obtain ⟨n, hn⟩ := ih hspot
    refine ⟨n, ?_⟩
    rw [← hn, follow_eq]
    rfl
  | free => cases hspot
  -- the first part ends in a directory
  | file _ hn => cases hspot; rw [hn] at hdirectory; cases hdirectory
  | @directory links name rest _ _ _ ha hn _ ih =>
    obtain ⟨n, hfollow⟩ := ih hspot
    refine ⟨n, ?_⟩
    rw [← hfollow, follow_eq, List.cons_append, followWith_into (admits_middle ha (by simp [hb])),
      hn]
  -- no last step stops at a link there
  | stop _ _ hlast => cases hlast
  | @link links name rest _ _ t _ ha hn _ _ ih =>
    obtain ⟨n, hfollow⟩ := ih hspot
    have hrest : rest ++ b ≠ [] := by simp [hb]
    refine ⟨n, ?_⟩
    rw [← hfollow, follow_eq, List.cons_append, followWith_into (admits_middle ha hrest), hn,
      List.append_assoc]
    dsimp only
    rw [if_neg (fun hstop => hrest hstop.1), jump]
    dsimp only
    rw [if_neg hrest]

/-- Only directories and links matter to a way into a directory. -/
theorem Enters.of_ways (h : Enters fs links steps o d) (hk : KeepsWays fs fs') :
    Enters fs' links steps o d := by
  have hdirectory := h.directory
  -- the same way is there, since nodes on the way to a directory are kept
  refine ⟨hk.node _ _ (by simp) hdirectory, fun slash => ?_⟩
  obtain ⟨s, hf⟩ := h.follows slash
  refine ⟨s, ?_⟩
  generalize hspot : Spot.taken d s = spot at hf ⊢
  clear h
  induction hf with
  | done => exact .done
  | here _ ih => exact .here (ih hspot)
  | up _ ih => exact .up (ih hspot)
  | free => cases hspot
  | file _ hn => cases hspot; rw [hn] at hdirectory; cases hdirectory
  | directory ha hn _ ih => exact .directory ha (hk.node _ _ (by simp) hn) (ih hspot)
  | stop _ _ hlast => cases hlast
  | link ha hn hlast _ ih => exact .link ha (hk.node _ _ (by simp) hn) hlast (ih hspot)

end Enters

/-! ## Paths into a directory -/

section Paths

variable {last : LastStep} {steps : List Step} {spot : Spot}

/-- The steps of a path lead to the last one, which is into the entry `name`. -/
structure EndsAt (p : Path) (steps : List Step) (name : RawText) : Prop where
  steps : p.steps = steps ++ [.into name]
  slash : p.endsInSlash = false

/-- The path is used as one, and the name at its end is not too long. -/
structure Fits (p : Path) (name : RawText) : Prop where
  fault : fault? p = none
  name : name.bytes.length ≤ maxName

theorem enters_of_locate (h : fs.locate p = .ok (d, .directory)) :
    Enters fs maxLinks p.steps (origin p fs.cwd) d := by
  obtain ⟨⟨s, hs⟩, hd⟩ := locate_directory_iff.mp h
  exact ⟨hd, (spot_ok_iff.mp hs).2.exists_slash⟩

theorem locate_of_enters (hp : fault? p = none)
    (h : Enters fs maxLinks p.steps (origin p fs.cwd) d) : fs.locate p = .ok (d, .directory) := by
  obtain ⟨s, hf⟩ := h.follows p.endsInSlash
  exact locate_directory_iff.mpr ⟨⟨s, spot_ok_iff.mpr ⟨hp, hf⟩⟩, h.directory⟩

/-- Whatever a path leads to, the steps before its last one enter a directory. -/
theorem enters_of_spot (hg : Grounded fs) (hp : EndsAt p steps name)
    (h : fs.spot last p = .ok spot) : ∃ d n, Enters fs maxLinks steps (origin p fs.cwd) d ∧
      Follows fs last n [.into name] false d spot := by
  have hf := (spot_ok_iff.mp h).2
  rw [hp.steps, hp.slash] at hf
  exact hf.split hg (node?_origin hg.cwd p) (by simp)

/-- The last step leads to the entry itself, unless a link is followed there. -/
theorem eq_of_follows {links : Nat} {slash slash' : Bool}
    (h : Follows fs ⟨false, false⟩ links [.into name] slash d (.taken l slash')) :
    l = name :: d := by
  cases h with
  | file _ _ => rfl
  | directory _ _ h => cases h; rfl
  | stop _ _ _ => rfl
  | link _ _ hlast _ => exact absurd (hlast rfl) (by simp)

/-- The last step of a path is taken in the directory that the others enter. -/
theorem spot_of_enters (hp : EndsAt p steps name) (hfault : fault? p = none)
    (he : Enters fs maxLinks steps (origin p fs.cwd) d) (last : LastStep) :
    ∃ n, fs.spot last p = follow fs last n [.into name] false d := by
  obtain ⟨n, hn⟩ : ∃ n, follow fs last maxLinks (steps ++ [.into name]) false (origin p fs.cwd)
      = follow fs last n [.into name] false d := he.follow_append last (by simp)
  refine ⟨n, ?_⟩
  rw [spot, hfault]
  dsimp only
  rw [hp.steps, hp.slash]
  exact hn

/-- A directory is found where it was when files come and go. -/
theorem locate_of_ways (hk : KeepsWays fs fs') (hp : fs.locate p = .ok (d, .directory)) :
    fs'.locate p = .ok (d, .directory) := by
  obtain ⟨⟨s, hs⟩, _⟩ := locate_directory_iff.mp hp
  refine locate_of_enters (spot_ok_iff.mp hs).1 ?_
  rw [hk.cwd]
  exact (enters_of_locate hp).of_ways hk

/-- The last step leads to its entry, unless a link stands there. -/
theorem follow_unlinked (h : ∀ t, fs.node? (name :: d) ≠ some (.link t)) (last : LastStep)
    (n : Nat) : follow fs last n [.into name] false d =
      if maxName < name.bytes.length then .error .nameTooLong
      else if (fs.node? (name :: d)).isSome then .ok (.taken (name :: d) false)
      else .ok (.free d name false) := by
  rw [follow_eq, followWith, if_neg (by simp)]
  split
  · rfl
  · cases hn : fs.node? (name :: d) with
    | none => rfl
    | some node =>
      cases node with
      | file c => rfl
      | directory => rfl
      | link t => exact absurd hn (h t)

theorem follow_entry (h : FileAt fs (name :: d)) (last : LastStep) (n : Nat) :
    follow fs last n [.into name] false d =
      if maxName < name.bytes.length then .error .nameTooLong
      else if (fs.node? (name :: d)).isSome then .ok (.taken (name :: d) false)
      else .ok (.free d name false) := by
  refine follow_unlinked (fun t hlink => ?_) last n
  obtain ⟨c, hfile⟩ := h _ hlink
  cases hfile

/-- Where a path to a file leads that may be there or not. -/
theorem spot_entry (hg : Grounded fs) (hp : EndsAt p steps name)
    (he : Enters fs maxLinks steps (origin p fs.cwd) d) (hfile : FileAt fs (name :: d))
    (h : fs.spot last p = .ok spot) :
    (spot = .free d name false ∧ fs.node? (name :: d) = none) ∨
      (spot = .taken (name :: d) false ∧ ∃ c, fs.node? (name :: d) = some (.file c)) := by
  -- the one directory that the steps enter is `d`, and only the last step is left
  obtain ⟨d', n, he', hf⟩ := enters_of_spot hg hp h
  obtain rfl := he.unique he'
  have hfollow := follow_of_follows hf
  rw [follow_entry hfile] at hfollow
  split at hfollow
  · -- the name is too long, and no spot was told
    cases hfollow
  · -- the entry is a free place or holds a file
    rcases hfile.cases with hn | ⟨c, hn⟩
    · rw [hn] at hfollow
      cases hfollow
      exact Or.inl ⟨rfl, hn⟩
    · rw [hn] at hfollow
      cases hfollow
      exact Or.inr ⟨rfl, c, hn⟩

/-- A file that is written is set at its entry, and its path can be used. -/
theorem write_entry {content : ByteArray} (hg : Grounded fs) (hp : EndsAt p steps name)
    (he : Enters fs maxLinks steps (origin p fs.cwd) d) (hfile : FileAt fs (name :: d))
    (h : fs.write p content = .ok fs') :
    fs' = fs.set (name :: d) (.file content) ∧ Fits p name := by
  -- had the name been too long, there would be no spot to write to
  have hfits : ∀ spot, fs.spot ⟨true, true⟩ p = .ok spot → Fits p name := by
    intro spot hs
    have hfault := (spot_ok_iff.mp hs).1
    refine ⟨hfault, Nat.le_of_not_lt fun hlong => ?_⟩
    obtain ⟨n, hspot⟩ := spot_of_enters hp hfault he ⟨true, true⟩
    rw [follow_entry hfile, if_pos hlong] at hspot
    rw [hspot] at hs
    cases hs
  rw [write] at h
  split at h
  · cases h
  · next hs =>
    -- a spot that is free: only the first alternative can be
    rcases spot_entry hg hp he hfile hs with ⟨hspot, _⟩ | ⟨hspot, _⟩
    · cases hspot
      exact ⟨(Except.ok.inj h).symm, hfits _ hs⟩
    · cases hspot
  · next hs =>
    -- a file stands there: only the second one can be
    rcases spot_entry hg hp he hfile hs with ⟨hspot, _⟩ | ⟨hspot, c, hn⟩
    · cases hspot
    · cases hspot
      rw [hn] at h
      exact ⟨(Except.ok.inj h).symm, hfits _ hs⟩

/-- Only the empty path names nothing at all. -/
theorem bytes_of_fault? (h : fault? p = some .notFound) : p.bytes = [] := by
  rw [fault?] at h
  split at h
  · cases h
  · split at h
    · cases h
    · split at h
      · next hempty => exact hempty
      · cases h

/-- A path that leads into a directory is there to be used, unless it is too long or no path. -/
theorem fault?_ne_notFound (hp : EndsAt p steps name) : fault? p ≠ some .notFound := by
  intro h
  have hsteps := hp.steps
  rw [Path.steps, bytes_of_fault? h] at hsteps
  exact absurd hsteps.symm (by simp [Path.splitSlashes])

theorem remove_ok (h : fs.remove p = .ok fs') : ∃ l slash,
    fs.spot ⟨false, false⟩ p = .ok (.taken l slash) ∧ fs.node? l ≠ some .directory ∧
      fs' = fs.erase l := by
  rw [remove] at h
  split at h
  · cases h
  · cases h
  · next l slash hspot =>
    split at h
    · cases h
    · next hne =>
      split at h
      · cases h
      · cases h
        exact ⟨l, slash, hspot, hne, rfl⟩

/--
What removing a file does that may be there or not: nothing is found, or it is taken away, or the
path is refused.
-/
theorem remove_cases (hp : EndsAt p steps name)
    (he : Enters fs maxLinks steps (origin p fs.cwd) d) (hfile : FileAt fs (name :: d)) :
    (fs.remove p = .error .notFound ∧ fs.node? (name :: d) = none) ∨
      (fs.remove p = .ok (fs.erase (name :: d)) ∧ ∃ c, fs.node? (name :: d) = some (.file c)) ∨
      (¬Fits p name ∧ ∃ e, e ≠ .notFound ∧ fs.remove p = .error e) := by
  cases hfault : fault? p with
  | some e =>
    -- the path itself is at fault
    refine Or.inr (Or.inr ⟨fun hfits => ?_, e, ?_, ?_⟩)
    · rw [hfits.fault] at hfault
      cases hfault
    · rintro rfl
      exact fault?_ne_notFound hp hfault
    · rw [remove, spot, hfault]
  | none =>
    obtain ⟨n, hspot⟩ := spot_of_enters hp hfault he ⟨false, false⟩
    rw [follow_entry hfile] at hspot
    rw [remove, hspot]
    by_cases hlong : maxName < name.bytes.length
    · -- a name that is too long is told as such
      rw [if_pos hlong]
      exact Or.inr (Or.inr ⟨fun hfits => Nat.not_lt.mpr hfits.name hlong, _, by simp, rfl⟩)
    · rw [if_neg hlong]
      -- else it depends on what stands there
      rcases hfile.cases with hn | ⟨c, hn⟩
      · simp [hn]
      · simp [hn]

end Paths

end Highlight.FileSystem
