import Highlight.Proofs.FileSystem.Resolve

/-!
# The way along a list of steps

`Leads` says where steps lead, whether or not something stands there. It has neither the bound on
links nor the slash at the end that `Follows` keeps track of, and in exchange it composes: the way
along two lists of steps is the way along the first and then along the second (`Leads.split`), dots
on the way do not matter (`Leads.of_filter`), and where it ends is determined (`Leads.unique`).

A file system is grounded if all its nodes stand in directories. Then whatever a way ends at stands
in a directory, or would.
-/

namespace Highlight.FileSystem

variable {fs fs' : FileSystem}

/-- The steps lead from `d` to `l`. Nothing but a file may stand in the way of the last one. -/
inductive Leads (fs : FileSystem) : Location → List Step → Location → Prop where
  | done (d : Location) : Leads fs d [] d
  | here {d l : Location} {rest : List Step} : Leads fs d rest l → Leads fs d (.here :: rest) l
  | up {d l : Location} {rest : List Step} : Leads fs d.tail rest l → Leads fs d (.up :: rest) l
  | last {d : Location} {name : RawText} :
      (fs.node? (name :: d) = none ∨ ∃ c, fs.node? (name :: d) = some (.file c)) →
      Leads fs d [.into name] (name :: d)
  | directory {d l : Location} {name : RawText} {rest : List Step} :
      fs.node? (name :: d) = some .directory → Leads fs (name :: d) rest l →
      Leads fs d (.into name :: rest) l
  | link {d l : Location} {name : RawText} {t : Path} {rest : List Step} :
      fs.node? (name :: d) = some (.link t) → Leads fs (origin t d) (t.steps ++ rest) l →
      Leads fs d (.into name :: rest) l

/-- The path leads to the location. -/
def LeadsTo (fs : FileSystem) (p : Path) (l : Location) : Prop :=
  Leads fs (origin p fs.cwd) p.steps l

namespace Leads

variable {d l m : Location} {steps a b : List Step}

theorem unique (h : Leads fs d steps l) (h' : Leads fs d steps m) : l = m := by
  -- each step has one rule only, by what stands at the name
  induction h with
  | done d => cases h'; rfl
  | here _ ih => cases h' with | here h' => exact ih h'
  | up _ ih => cases h' with | up h' => exact ih h'
  | last hn =>
    cases h' with
    | last _ => rfl
    | directory hd _ => simp [hd] at hn
    | link hl _ => simp [hl] at hn
  | directory hd _ ih =>
    cases h' with
    | last hn => simp [hd] at hn
    | directory _ h' => exact ih h'
    | link hl _ => simp [hd] at hl
  | link hl _ ih =>
    cases h' with
    | last hn => simp [hl] at hn
    | directory hd _ => simp [hl] at hd
    | link hl' h' =>
      rw [hl] at hl'
      cases hl'
      exact ih h'

/-- The way along two lists of steps is the way along the first and then along the second. -/
theorem split (h : Leads fs d (a ++ b) l) : ∃ m, Leads fs d a m ∧ Leads fs m b l := by
  generalize hsteps : a ++ b = steps at h
  induction h generalizing a with
  | done d =>
    obtain ⟨rfl, rfl⟩ := List.append_eq_nil_iff.mp hsteps
    exact ⟨d, .done d, .done d⟩
  | @here d l rest h ih =>
    -- induction on the way; `a` ends where the way has taken all its steps
    rcases List.append_eq_cons_iff.mp hsteps with ⟨rfl, rfl⟩ | ⟨a, rfl, rfl⟩
    · exact ⟨d, .done d, .here h⟩
    · obtain ⟨m, ha, hb⟩ := ih rfl
      exact ⟨m, .here ha, hb⟩
  | @up d l rest h ih =>
    rcases List.append_eq_cons_iff.mp hsteps with ⟨rfl, rfl⟩ | ⟨a, rfl, rfl⟩
    · exact ⟨d, .done d, .up h⟩
    · obtain ⟨m, ha, hb⟩ := ih rfl
      exact ⟨m, .up ha, hb⟩
  | @last d name hn =>
    rcases List.append_eq_cons_iff.mp hsteps with ⟨rfl, rfl⟩ | ⟨a, rfl, hrest⟩
    · exact ⟨d, .done d, .last hn⟩
    · -- the name was the last step, so nothing is left for the second list
      obtain ⟨rfl, rfl⟩ := List.append_eq_nil_iff.mp hrest.symm
      exact ⟨name :: d, .last hn, .done _⟩
  | @directory d l name rest hn h ih =>
    rcases List.append_eq_cons_iff.mp hsteps with ⟨rfl, rfl⟩ | ⟨a, rfl, rfl⟩
    · exact ⟨d, .done d, .directory hn h⟩
    · obtain ⟨m, ha, hb⟩ := ih rfl
      exact ⟨m, .directory hn ha, hb⟩
  | @link d l name t rest hn h ih =>
    rcases List.append_eq_cons_iff.mp hsteps with ⟨rfl, rfl⟩ | ⟨a, rfl, rfl⟩
    · exact ⟨d, .done d, .link hn h⟩
    · -- the steps of the link come before what is left of the first list
      obtain ⟨m, ha, hb⟩ := ih (List.append_assoc _ _ _)
      exact ⟨m, .link hn ha, hb⟩

/-- A dot may be left out, wherever it stands. -/
theorem of_here (h : Leads fs d (a ++ .here :: b) l) : Leads fs d (a ++ b) l := by
  generalize hsteps : a ++ .here :: b = steps at h
  induction h generalizing a with
  | done d => cases a <;> cases hsteps
  | here h ih =>
    cases a with
    | nil => cases hsteps; exact h
    | cons step a =>
      obtain ⟨rfl, hrest⟩ := List.cons.inj hsteps
      exact .here (ih hrest)
  | up h ih =>
    cases a with
    | nil => cases hsteps
    | cons step a =>
      obtain ⟨rfl, hrest⟩ := List.cons.inj hsteps
      exact .up (ih hrest)
  | last hn =>
    cases a with
    | nil => cases hsteps
    | cons step a => cases a <;> cases (List.cons.inj hsteps).2
  | directory hn h ih =>
    cases a with
    | nil => cases hsteps
    | cons step a =>
      obtain ⟨rfl, hrest⟩ := List.cons.inj hsteps
      exact .directory hn (ih hrest)
  | @link d l name t rest hn h ih =>
    cases a with
    | nil => cases hsteps
    | cons step a =>
      obtain ⟨rfl, hrest⟩ := List.cons.inj hsteps
      have hway : Leads fs (origin t d) ((t.steps ++ a) ++ b) l :=
        ih ((List.append_assoc _ _ _).trans (congrArg _ hrest))
      rw [List.append_assoc] at hway
      exact .link hn hway

/-- No dot on the way matters. -/
theorem of_filter (h : Leads fs d (a ++ b) l) : Leads fs d (a ++ b.filter (· ≠ .here)) l := by
  induction b generalizing a with
  | nil => exact h
  | cons step b ih =>
    by_cases hs : step = .here
    · subst hs
      rw [List.filter_cons_of_neg (by simp)]
      -- a step to the same directory is left out
      exact ih h.of_here
    · rw [List.filter_cons_of_pos (by simp [hs]), ← List.singleton_append, ← List.append_assoc]
      rw [← List.singleton_append, ← List.append_assoc] at h
      exact ih h

/-- Where there are no links, the last name of the way is where it ends. -/
theorem last_of_no_links {name : RawText} (hlinks : ∀ l t, fs.node? l ≠ some (.link t))
    (h : Leads fs d (a ++ [.into name]) l) : ∃ m, l = name :: m := by
  obtain ⟨m, _, h⟩ := h.split
  cases h with
  | last _ => exact ⟨m, rfl⟩
  | directory _ h => cases h; exact ⟨m, rfl⟩
  | link hl _ => exact absurd hl (hlinks _ _)

end Leads

/-! ## Grounded file systems -/

/-- Every node stands in a directory, and relative paths start from one. -/
structure Grounded (fs : FileSystem) : Prop where
  cwd : fs.node? fs.cwd = some .directory
  parent : ∀ name l n, fs.node? (name :: l) = some n → fs.node? l = some .directory

theorem node?_origin {d : Location} (hd : fs.node? d = some .directory) (p : Path) :
    fs.node? (origin p d) = some .directory := by
  unfold origin
  split
  · exact node?_root fs
  · exact hd

/-- It is enough to look at the nodes that are listed. -/
theorem grounded_of_nodes (hcwd : fs.node? fs.cwd = some .directory)
    (h : ∀ e ∈ fs.nodes, fs.node? e.1.tail = some .directory) : Grounded fs := by
  refine ⟨hcwd, ?_⟩
  intro name l n hn
  rw [node?, if_neg (List.cons_ne_nil name l)] at hn
  exact h _ (mem_of_find hn)

namespace Grounded

variable {l d : Location}

theorem tail (h : Grounded fs) (hl : fs.node? l = some .directory) :
    fs.node? l.tail = some .directory := by
  cases l with
  | nil => exact hl
  | cons name l => exact h.parent name l _ hl

/-- What a way from a directory ends at stands in a directory. -/
theorem parent_of_leads (h : Grounded fs) {steps : List Step} (hw : Leads fs d steps l)
    (hd : fs.node? d = some .directory) : fs.node? l.tail = some .directory := by
  induction hw with
  | done d => exact h.tail hd
  | here _ ih => exact ih hd
  | up _ ih => exact ih (h.tail hd)
  | last _ => exact hd
  | directory hn _ ih => exact ih hn
  | link _ _ ih => exact ih (node?_origin hd _)

/-- A node set right in a directory needs no other directory. -/
theorem set (h : Grounded fs) {n : Node} (hparent : fs.node? l.tail = some .directory)
    (hl : l ≠ []) (hn : n = .directory ∨ fs.node? l ≠ some .directory) : Grounded (fs.set l n) := by
  -- directories are kept, since none is replaced by anything else
  have hkeep : ∀ m, fs.node? m = some .directory → (fs.set l n).node? m = some .directory := by
    intro m hm
    by_cases hlm : l = m
    · subst hlm
      rcases hn with rfl | hn
      · exact node?_set_self hl _
      · exact absurd hm hn
    · rw [node?_set_ne hl _ hlm, hm]
  refine ⟨hkeep _ h.cwd, ?_⟩
  intro name m n' hm
  by_cases hlm : l = name :: m
  · -- the new node has a directory above it
    subst hlm
    exact hkeep _ hparent
  · -- any other node has the one that was above it
    rw [node?_set_ne hl _ hlm] at hm
    exact hkeep _ (h.parent name m n' hm)

end Grounded

/-! ## Following is going that way -/

/-- The location of a node or of a free name. -/
def Spot.location : Spot → Location
  | .taken l _ => l
  | .free d name _ => name :: d

/--
Following goes the way of the steps, if links are followed to the end or nothing stands there. At a
free name nothing does.
-/
theorem Follows.leads {last : LastStep} {links : Nat} {steps : List Step} {slash : Bool}
    {d : Location} {spot : Spot} (h : Follows fs last links steps slash d spot)
    (hlast : last.follows = true ∨ ∃ m x s, spot = .free m x s) :
    Leads fs d steps spot.location := by
  induction h with
  | done => exact .done _
  | here _ ih => exact .here (ih hlast)
  | up _ ih => exact .up (ih hlast)
  | free _ hn => exact .last (Or.inl hn)
  | file _ hn => exact .last (Or.inr ⟨_, hn⟩)
  | directory _ hn _ ih => exact .directory hn (ih hlast)
  | stop _ _ hf =>
    -- stopping at a link is the only way to end elsewhere
    rcases hlast with hlast | ⟨_, _, _, hspot⟩
    · simp [hlast] at hf
    · cases hspot
  | link _ hn _ _ ih => exact .link hn (ih hlast)

theorem Follows.node?_free {last : LastStep} {links : Nat} {steps : List Step} {slash s : Bool}
    {d m : Location} {name : RawText}
    (h : Follows fs last links steps slash d (.free m name s)) : fs.node? (name :: m) = none := by
  generalize hspot : Spot.free m name s = spot at h
  induction h with
  | done => cases hspot
  | here _ ih => exact ih hspot
  | up _ ih => exact ih hspot
  | free _ hn => cases hspot; exact hn
  | file => cases hspot
  | directory _ _ _ ih => exact ih hspot
  | stop => cases hspot
  | link _ _ _ _ ih => exact ih hspot

/-- In a grounded file system no file is to be made where a slash stands at the end. -/
theorem Follows.directory_of_slash {last : LastStep} {links : Nat} {steps : List Step}
    {slash : Bool} {d l : Location} (hg : Grounded fs) (hm : last.makesFile = true)
    (hd : fs.node? d = some .directory)
    (h : Follows fs last links steps slash d (.taken l true)) : fs.node? l = some .directory := by
  generalize hspot : Spot.taken l true = spot at h
  induction h with
  | done => cases hspot; exact hd
  | here _ ih => exact ih hd hspot
  | up _ ih => exact ih (hg.tail hd) hspot
  | free => cases hspot
  | file ha _ => cases hspot; exact absurd ⟨rfl, hm, rfl⟩ ha.2
  | directory _ hn _ ih => exact ih hn hspot
  | stop ha _ _ => cases hspot; exact absurd ⟨rfl, hm, rfl⟩ ha.2
  | link _ _ _ _ ih => exact ih (node?_origin hd _) hspot

end Highlight.FileSystem
