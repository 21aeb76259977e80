import Highlight.Proofs.Table

/-!
# One table laid over another

`putAll base cover` lays `cover` on `base`. Where the names of `cover` are distinct, two laws tell
the outcome: a name has the value of `cover`, or else that of `base`; and the names of `base` keep
their places while the new ones follow in the order of `cover` (`Overlaid`). A value put last is an
entry of what is laid over (`put_putAll`), so that the same two laws say what becomes of it. Laid
over once more, a table changes nothing.
-/

namespace Highlight.Table

variable {α : Type} {base cover result t : Table α} {name : String} {v : α}

/-- In `result` the entries of `cover` come before those of `base`, at the places of `base`. -/
structure Overlaid (base cover result : Table α) : Prop where
  /-- Of each name the value that is laid over counts first. -/
  value : ∀ name, get? result name = (get? cover name).or (get? base name)
  /-- New names follow those that were there. -/
  order : names result = names base ++ (names cover).filter (· ∉ names base)

/-- Where no name comes up twice, entries may be read from either end. -/
theorem get?_reverse (h : (names t).Nodup) (name : String) :
    get? t.reverse name = get? t name := by
  cases hget : get? t name with
  | none => rwa [get?_eq_none_iff, names_reverse, List.mem_reverse, ← get?_eq_none_iff]
  | some v =>
    refine get?_of_mem ?_ (List.mem_reverse.mpr (mem_of_get? hget))
    rw [names_reverse]
    exact List.nodup_reverse.mpr h

theorem names_putAll (h : (names cover).Nodup) :
    names (putAll base cover) = names base ++ (names cover).filter (· ∉ names base) := by
  induction cover generalizing base with
  | nil => exact (List.append_nil _).symm
  | cons e cover ih =>
    obtain ⟨k, v⟩ := e
    rw [names_cons, List.nodup_cons] at h
    have hstep : putAll base ((k, v) :: cover) = putAll (put base k v) cover := rfl
    rw [hstep, ih h.2, names_put, names_cons]
    by_cases hk : k ∈ names base
    · -- a name of the base keeps its place
      rw [if_pos hk, List.filter_cons_of_neg (by simpa using hk)]
    · -- the name is new, and it does not come up again
      have hrest : (names cover).filter (· ∉ names base ++ [k])
          = (names cover).filter (· ∉ names base) := by
        apply List.filter_congr
        intro k' hk'
        have hne : k' ≠ k := fun heq => h.1 (heq ▸ hk')
        simp [hne]
      rw [if_neg hk, hrest, List.filter_cons_of_pos (by simpa using hk), List.append_assoc,
        List.singleton_append]

/-- **Laying a table over another.** -/
theorem overlaid_putAll (h : (names cover).Nodup) (base : Table α) :
    Overlaid base cover (putAll base cover) where
  value name := by rw [get?_putAll, get?_reverse h]
  order := names_putAll h

/-- A name of `t` may be given its value before a table without that name is laid over. -/
theorem put_putAll_of_not_mem (hname : name ∈ names t) (h : name ∉ names cover) (v : α) :
    put (putAll t cover) name v = putAll (put t name v) cover := by
  induction cover generalizing t with
  | nil => rfl
  | cons e cover ih =>
    obtain ⟨k, w⟩ := e
    rw [names_cons, List.mem_cons, not_or] at h
    have hstep (t : Table α) : putAll t ((k, w) :: cover) = putAll (put t k w) cover := rfl
    rw [hstep, hstep, ih (mem_names_put.mpr (Or.inl hname)) h.2, put_comm (Ne.symm h.1) hname]

/-- What is put last might have been put into the table that is laid over. -/
theorem put_putAll (h : (names cover).Nodup) (base : Table α) (name : String) (v : α) :
    put (putAll base cover) name v = putAll base (put cover name v) := by
  induction cover generalizing base with
  | nil => rfl
  | cons e cover ih =>
    obtain ⟨k, w⟩ := e
    rw [names_cons, List.nodup_cons] at h
    have hstep : putAll base ((k, w) :: cover) = putAll (put base k w) cover := rfl
    rw [put, hstep]
    split
    · next hk =>
      subst hk
      -- the last value put for the name is the one that stays
      have hmem : k ∈ names (put base k w) := mem_names_put.mpr (Or.inr rfl)
      rw [put_putAll_of_not_mem hmem h.1, put_put]
      rfl
    · exact ih h.2 _

theorem putAll_of_agree (h : ∀ e ∈ cover, get? t e.1 = some e.2) : putAll t cover = t := by
  induction cover with
  | nil => rfl
  | cons e cover ih =>
    have hstep : putAll t (e :: cover) = putAll (put t e.1 e.2) cover := rfl
    rw [hstep, put_of_get? (h e List.mem_cons_self)]
    exact ih fun e' he' => h e' (List.mem_cons_of_mem e he')

/-- **Laying a table over another twice is laying it over once.** -/
theorem putAll_putAll (h : (names cover).Nodup) (base : Table α) :
    putAll (putAll base cover) cover = putAll base cover := by
  apply putAll_of_agree
  intro e he
  rw [(overlaid_putAll h base).value, get?_of_mem h he]
  rfl

end Highlight.Table
