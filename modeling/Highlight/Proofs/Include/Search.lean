import Highlight.Proofs.Include.Walk
import Highlight.Proofs.Table
import Mathlib

/-!
# The stack and the walk

`gather` keeps pending names on a stack, on which names stand several times and names stay that
were visited meanwhile. `Search.round` is one round of it, and `Search.outcome` is what the walk of
`visitAll` would make of a stack and of what was visited. No round changes the outcome, which is
all that the two have in common that matters: what is still to be visited is the visit to all
pending names, one after another.

`Search.remaining` counts the rounds to come. Each round leaves one less, so the count is exact:
every name of the first list is taken from the stack once, and so is every name that a document
which was looked up includes.
-/

namespace Highlight

attribute [ext] Gathered

/-- Where the search for included documents stands. -/
structure Search where
  /-- The names still to be looked up, the next one first. -/
  pending : List String
  /-- The names looked up so far, the latest first. -/
  visited : List String
  merged : Keywords

namespace Search

variable {l : Loader} {s s' : Search}

/-- The search for what a document called `name` includes, at its start. -/
def start (doc : Source) (name : String) : Search := ⟨doc.includes, [name], doc.keywords⟩

/-- One round: the next pending name is passed over or looked up. -/
def round (l : Loader) (s : Search) : Option Search :=
  match s.pending with
  | [] => none
  | name :: pending =>
    if name ∈ s.visited then some { s with pending }
    else
      let doc := l.document name
      some ⟨doc.includes ++ pending, name :: s.visited, s.merged.putAllNew doc.keywords⟩

/-- Where the search stands after `n` rounds, if it goes on that long. -/
def after (l : Loader) : (n : Nat) → Search → Option Search
  | 0, s => some s
  | n + 1, s => (s.round l).bind (after l n)

/-- What can happen in a round. -/
theorem round_cases (h : s.round l = some s') : ∃ name pending, s.pending = name :: pending ∧
    (name ∈ s.visited ∧ s' = ⟨pending, s.visited, s.merged⟩ ∨
      name ∉ s.visited ∧ s' = ⟨(l.document name).includes ++ pending, name :: s.visited,
        s.merged.putAllNew (l.document name).keywords⟩) := by
  unfold round at h
  split at h
  · cases h
  · rename_i name pending hp
    refine ⟨name, pending, hp, ?_⟩
    split at h
    · rename_i hv
      exact Or.inl ⟨hv, (Option.some.inj h).symm⟩
    · rename_i hv
      exact Or.inr ⟨hv, (Option.some.inj h).symm⟩

theorem round_eq_none_iff : s.round l = none ↔ s.pending = [] := by
  constructor
  · intro h
    unfold round at h
    split at h
    · assumption
    · split at h <;> cases h
  · intro h
    rw [round, h]

/-! ## A run of rounds -/

/-- What every round preserves holds at the end of every run. -/
theorem after_induction {P : Search → Prop}
    (hround : ∀ s s', P s → s.round l = some s' → P s') :
    ∀ (n : Nat) {s final : Search}, P s → after l n s = some final → P final := by
  intro n
  induction n with
  | zero =>
    intro s final hs h
    rw [← Option.some.inj h]
    exact hs
  | succ n ih =>
    intro s final hs h
    obtain ⟨s', hr, h'⟩ := Option.bind_eq_some_iff.mp h
    exact ih (hround s s' hs hr) h'

/-- How many rounds are to come: one for each pending name and each name still to be included. -/
def remaining (l : Loader) (s : Search) : Nat :=
  s.pending.length
    + ((visitAll l s.visited s.pending).map fun n => (l.document n).includes.length).sum

theorem remaining_round (h : s.round l = some s') : s.remaining l = s'.remaining l + 1 := by
  obtain ⟨name, pending, hp, ⟨hv, rfl⟩ | ⟨hv, rfl⟩⟩ := round_cases h
  · unfold remaining
    rw [hp, visitAll_cons_of_mem hv, List.length_cons]
    dsimp only
    omega
  · unfold remaining
    rw [hp, visitAll_cons_of_not_mem hv, List.map_cons, List.sum_cons, List.length_cons,
      List.length_append]
    dsimp only
    omega

/-- The search ends, after exactly as many rounds as were to come. -/
theorem after_remaining (l : Loader) (s : Search) :
    ∃ final, after l (s.remaining l) s = some final ∧ final.pending = [] := by
  induction hn : s.remaining l generalizing s with
  | zero =>
    refine ⟨s, rfl, List.length_eq_zero_iff.mp ?_⟩
    unfold remaining at hn
    omega
  | succ n ih =>
    cases hr : s.round l with
    | none =>
      -- nothing is pending, so no round would be to come
      have hp := round_eq_none_iff.mp hr
      rw [remaining, hp, visitAll_nil] at hn
      exact absurd hn (Nat.succ_ne_zero n).symm
    | some s' =>
      rw [remaining_round hr] at hn
      obtain ⟨final, hafter, hpending⟩ := ih s' (Nat.succ.inj hn)
      exact ⟨final, by rw [after, hr]; exact hafter, hpending⟩

/-! ## What comes of it -/

/-- What is gathered from where the search stands. -/
def result (l : Loader) (s : Search) : Gathered := gather l s.pending s.visited s.merged

theorem result_done (h : s.pending = []) : s.result l = ⟨s.merged, s.visited.reverse⟩ := by
  rw [result, h, gather]

theorem result_round (h : s.round l = some s') : s'.result l = s.result l := by
  obtain ⟨name, pending, hp, ⟨hv, rfl⟩ | ⟨hv, rfl⟩⟩ := round_cases h
  · rw [result, result, hp, gather, if_pos hv]
  · rw [result, result, hp, gather, if_neg hv]
    split
    · rename_i hl
      rw [Loader.document_of_none hl]
      rfl
    · rename_i doc hl
      rw [Loader.document_of_some hl]

theorem result_after {n : Nat} {final : Search} (h : after l n s = some final) :
    final.result l = s.result l :=
  after_induction (P := fun t => t.result l = s.result l)
    (fun _ _ ht hr => (result_round hr).trans ht) n rfl h

/-- What the walk through the pending names makes of where the search stands. -/
def outcome (l : Loader) (s : Search) : Gathered where
  keywords := ((visitAll l s.visited s.pending).filterMap l.load).foldl
    (fun merged doc => merged.putAllNew doc.keywords) s.merged
  loads := s.visited.reverse ++ visitAll l s.visited s.pending

theorem outcome_done (h : s.pending = []) : s.outcome l = ⟨s.merged, s.visited.reverse⟩ := by
  rw [outcome, h, visitAll_nil, List.append_nil]
  rfl

/-- **A round leaves the outcome as it is.** -/
theorem outcome_round (h : s.round l = some s') : s'.outcome l = s.outcome l := by
  obtain ⟨name, pending, hp, ⟨hv, rfl⟩ | ⟨hv, rfl⟩⟩ := round_cases h
  · rw [outcome, outcome, hp, visitAll_cons_of_mem hv]
  · -- the name moves from the walk to the visited ones, and its keywords from the fold to `merged`
    rw [outcome, outcome, hp, visitAll_cons_of_not_mem hv, List.filterMap_cons,
      List.reverse_cons, List.append_assoc, List.singleton_append]
    congr 1
    cases hl : l.load name with
    | none => rw [Loader.document_of_none hl]; rfl
    | some doc => rw [Loader.document_of_some hl]; rfl

theorem outcome_after {n : Nat} {final : Search} (h : after l n s = some final) :
    final.outcome l = s.outcome l :=
  after_induction (P := fun t => t.outcome l = s.outcome l)
    (fun _ _ ht hr => (outcome_round hr).trans ht) n rfl h

theorem result_eq_outcome (l : Loader) (s : Search) : s.result l = s.outcome l := by
  -- the two agree once nothing is pending, and no round on the way there changes either
  obtain ⟨final, hafter, hpending⟩ := after_remaining l s
  rw [← result_after hafter, ← outcome_after hafter, result_done hpending, outcome_done hpending]

end Search

theorem withIncludes_loads (doc : Source) (l : Loader) (name : String) :
    (doc.withIncludes l name).loads = visitAll l [name] doc.includes :=
  congrArg (fun g => g.loads.tail) (Search.result_eq_outcome l (Search.start doc name))

theorem withIncludes_keywords (doc : Source) (l : Loader) (name : String) :
    (doc.withIncludes l name).keywords
      = (((doc.withIncludes l name).loads).filterMap l.load).foldl
        (fun merged doc => merged.putAllNew doc.keywords) doc.keywords := by
  rw [withIncludes_loads]
  exact congrArg Gathered.keywords (Search.result_eq_outcome l (Search.start doc name))

/-- The keywords are those of the document and of the documents that were found. -/
theorem mem_names_withIncludes {doc : Source} {l : Loader} {name k : String} :
    k ∈ (doc.withIncludes l name).keywords.names ↔ k ∈ doc.keywords.names ∨
      ∃ n ∈ (doc.withIncludes l name).loads, ∃ d, l.load n = some d ∧ k ∈ d.keywords.names := by
  rw [withIncludes_keywords, Table.mem_names_foldl_putAllNew]
  simp only [List.mem_filterMap]
  constructor
  · rintro (h | ⟨d, ⟨n, hn, hd⟩, hk⟩)
    · exact Or.inl h
    · exact Or.inr ⟨n, hn, d, hd, hk⟩
  · rintro (h | ⟨n, hn, d, hd, hk⟩)
    · exact Or.inl h
    · exact Or.inr ⟨d, ⟨n, hn, hd⟩, hk⟩

/-! ## Loaders that agree -/

/-- Only the names that are looked up matter to which names are looked up. -/
theorem visitAll_congr {l l' : Loader} {visited names : List String}
    (h : ∀ n ∈ visitAll l visited names, l'.load n = l.load n) :
    visitAll l' visited names = visitAll l visited names := by
  -- by the number of rounds to come
  induction hn : Search.remaining l ⟨names, visited, []⟩ generalizing visited names with
  | zero =>
    cases names with
    | nil => rw [visitAll_nil, visitAll_nil]
    | cons name names => simp [Search.remaining] at hn
  | succ n ih =>
    cases names with
    | nil => rw [visitAll_nil, visitAll_nil]
    | cons name names =>
      cases hr : Search.round l ⟨name :: names, visited, []⟩ with
      | none => cases Search.round_eq_none_iff.mp hr
      | some s' =>
        rw [Search.remaining_round hr, Nat.add_right_cancel_iff] at hn
        obtain ⟨_, _, hp, ⟨hv, rfl⟩ | ⟨hv, rfl⟩⟩ := Search.round_cases hr
        · -- both runs pass over a name that was visited before
          cases hp
          rw [visitAll_cons_of_mem hv] at h ⊢
          rw [visitAll_cons_of_mem hv]
          exact ih h hn
        · -- the name is looked up, so that both loaders agree on its document
          cases hp
          have hdocument : l'.document name = l.document name := by
            rw [Loader.document, Loader.document, h name]
            rw [visitAll_cons_of_not_mem hv]
            exact List.mem_cons_self
          rw [visitAll_cons_of_not_mem hv] at h ⊢
          rw [visitAll_cons_of_not_mem hv, hdocument]
          exact congrArg _ (ih (fun n hmem => h n (List.mem_cons_of_mem _ hmem)) hn)

/-- What a document includes depends on the names that are looked up only. -/
theorem withIncludes_congr {doc : Source} {l l' : Loader} {name : String}
    (h : ∀ n ∈ (doc.withIncludes l name).loads, l'.load n = l.load n) :
    doc.withIncludes l' name = doc.withIncludes l name := by
  have hloads : (doc.withIncludes l' name).loads = (doc.withIncludes l name).loads := by
    rw [withIncludes_loads] at h ⊢
    rw [withIncludes_loads]
    exact visitAll_congr h
  have hkeywords : (doc.withIncludes l' name).keywords = (doc.withIncludes l name).keywords := by
    rw [withIncludes_keywords, withIncludes_keywords, hloads, List.filterMap_congr h]
  exact Gathered.ext hkeywords hloads

/--
**The stack visits names in the order of the recursive walk.** The names looked up are those of the
walk through the include list with only the document's own name visited, and the keywords are its
own, joined by those of each document found, in that order, as far as they are new.
-/
theorem withIncludes_follows_walk (doc : Source) (l : Loader) (name : String) :
    (doc.withIncludes l name).loads = visitAll l [name] doc.includes ∧
      (doc.withIncludes l name).keywords
        = ((visitAll l [name] doc.includes).filterMap l.load).foldl
          (fun merged doc => merged.putAllNew doc.keywords) doc.keywords := by
  refine ⟨withIncludes_loads doc l name, ?_⟩
  rw [withIncludes_keywords, withIncludes_loads]

end Highlight
