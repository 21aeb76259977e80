import Highlight.Table
import Mathlib.Data.List.Induction
import Mathlib.Data.List.Nodup

/-!
# What a table says of a name

A table is looked at through `get?`, which gives the value of the first entry of a name, and
`names`, which keeps the order. `put` and `putNew` are described by what they do to the two, so
that nothing else has to open them.

Reading entries one after another and keeping the first of each name gives `firsts`. Its names are
those of the table without repetitions, its values are what `get?` says, and what comes later never
moves what was there: `firsts` of more entries starts with `firsts` of fewer. Filling a table by
`putAllNew` is the same as reading on.

Two tables may be the same but for the values of one name (`SameBut`), and stay so whatever is put
in both.
-/

namespace Highlight.Table

variable {α : Type}

/-! ## Looking a name up -/

theorem get?_cons (k : String) (v : α) (t : Table α) (name : String) :
    get? ((k, v) :: t) name = if k = name then some v else get? t name := rfl

/-- The entries in front count first. -/
theorem get?_append (t u : Table α) (name : String) :
    get? (t ++ u) name = (get? t name).or (get? u name) := by
  induction t with
  | nil => rfl
  | cons e t ih =>
    obtain ⟨k, v⟩ := e
    rw [List.cons_append, get?_cons, get?_cons]
    by_cases hk : k = name
    · rw [if_pos hk, if_pos hk]; rfl
    · rw [if_neg hk, if_neg hk, ih]

/-- Of several tables read one after another the first that knows a name counts. -/
theorem get?_flatten (ts : List (Table α)) (name : String) :
    get? ts.flatten name = ts.findSome? (get? · name) := by
  induction ts with
  | nil => rfl
  | cons t ts ih =>
    rw [List.flatten_cons, get?_append, List.findSome?_cons, ih]
    cases get? t name with
    | none => rfl
    | some v => rfl

theorem names_cons (k : String) (v : α) (t : Table α) : names ((k, v) :: t) = k :: names t := rfl

theorem names_append (t u : Table α) : names (t ++ u) = names t ++ names u := List.map_append

theorem names_flatten (ts : List (Table α)) : names ts.flatten = ts.flatMap names := by
  rw [names, List.map_flatten]
  rfl

theorem names_reverse (t : Table α) : names t.reverse = (names t).reverse := List.map_reverse

theorem get?_eq_none_iff {t : Table α} {name : String} : get? t name = none ↔ name ∉ names t := by
  induction t with
  | nil => exact ⟨fun _ => List.not_mem_nil, fun _ => rfl⟩
  | cons e t ih =>
    obtain ⟨k, v⟩ := e
    rw [get?_cons, names_cons, List.mem_cons, not_or]
    by_cases hk : k = name
    · rw [if_pos hk]
      exact ⟨fun h => absurd h (by simp), fun h => absurd hk.symm h.1⟩
    · rw [if_neg hk, ih]
      exact ⟨fun h => ⟨Ne.symm hk, h⟩, fun h => h.2⟩

theorem has_iff {t : Table α} {name : String} : has t name = true ↔ name ∈ names t := by
  unfold has
  rw [Option.isSome_iff_ne_none, ne_eq, get?_eq_none_iff, not_not]

theorem mem_of_get? {t : Table α} {name : String} {v : α} (h : get? t name = some v) :
    (name, v) ∈ t := by
  induction t with
  | nil => cases h
  | cons e t ih =>
    obtain ⟨k, w⟩ := e
    rw [get?_cons] at h
    split at h
    · next hk =>
      subst hk
      obtain rfl := Option.some.inj h
      exact List.mem_cons_self
    · exact List.mem_cons_of_mem _ (ih h)

/-- Where no name comes up twice, every entry is found. -/
theorem get?_of_mem {t : Table α} {name : String} {v : α} (hn : (names t).Nodup)
    (h : (name, v) ∈ t) : get? t name = some v := by
  induction t with
  | nil => cases h
  | cons e t ih =>
    obtain ⟨k, w⟩ := e
    rw [names_cons, List.nodup_cons] at hn
    rw [get?_cons]
    -- the entry stands in front or behind, and no other has its name
    rcases List.mem_cons.mp h with heq | hmem
    · obtain ⟨rfl, rfl⟩ := Prod.mk.inj heq
      rw [if_pos rfl]
    · have hne : k ≠ name := by
        intro hk
        exact hn.1 (hk ▸ List.mem_map_of_mem hmem)
      rw [if_neg hne]
      exact ih hn.2 hmem

/-- Where no name comes up twice, looking a name up is finding its entry. -/
theorem get?_eq_some_iff {t : Table α} {name : String} {v : α} (hn : (names t).Nodup) :
    get? t name = some v ↔ (name, v) ∈ t :=
  ⟨mem_of_get?, get?_of_mem hn⟩

/-- Where no name comes up twice, the order of the entries does not matter. -/
theorem get?_perm {t u : Table α} (h : t.Perm u) (hn : (names t).Nodup) (name : String) :
    get? t name = get? u name := by
  have hu : (names u).Nodup := (h.map Prod.fst).nodup_iff.mp hn
  apply Option.ext
  intro v
  rw [get?_eq_some_iff hn, get?_eq_some_iff hu, h.mem_iff]

theorem nodup_names_filter {t : Table α} (hn : (names t).Nodup) (p : String × α → Bool) :
    (names (t.filter p)).Nodup :=
  hn.sublist (List.filter_sublist.map Prod.fst)

/-- Where no name comes up twice, the entries that are dropped hide no others. -/
theorem get?_filter {t : Table α} (hn : (names t).Nodup) (p : String × α → Bool) (name : String) :
    get? (t.filter p) name = (get? t name).filter fun v => p (name, v) := by
  apply Option.ext
  intro v
  rw [get?_eq_some_iff (nodup_names_filter hn p), List.mem_filter, Option.filter_eq_some_iff,
    get?_eq_some_iff hn]

/-! ## Putting values -/

theorem get?_put (t : Table α) (name k : String) (v : α) :
    get? (put t name v) k = if name = k then some v else get? t k := by
  induction t with
  | nil => rfl
  | cons e t ih =>
    obtain ⟨k', w⟩ := e
    rw [put]
    by_cases hk : k' = name
    · -- the entry is the one that gets the value
      subst hk
      rw [if_pos rfl, get?_cons, get?_cons]
      split <;> rfl
    · -- it stays, and the value goes further on
      rw [if_neg hk, get?_cons, get?_cons, ih]
      by_cases hk' : k' = k
      · subst hk'
        rw [if_pos rfl, if_pos rfl, if_neg (Ne.symm hk)]
      · rw [if_neg hk', if_neg hk']

theorem names_put (t : Table α) (name : String) (v : α) :
    names (put t name v) = if name ∈ names t then names t else names t ++ [name] := by
  induction t with
  | nil => rfl
  | cons e t ih =>
    obtain ⟨k, w⟩ := e
    rw [put]
    by_cases hk : k = name
    · -- the name is there already
      rw [if_pos hk, names_cons, names_cons, if_pos (by simp [hk])]
    · have hmem : name ∈ k :: names t ↔ name ∈ names t := by simp [Ne.symm hk]
      rw [if_neg hk, names_cons, names_cons, ih]
      by_cases hn : name ∈ names t
      · rw [if_pos hn, if_pos (hmem.mpr hn)]
      · rw [if_neg hn, if_neg (fun h => hn (hmem.mp h)), List.cons_append]

theorem mem_names_put {t : Table α} {name k : String} {v : α} :
    k ∈ names (put t name v) ↔ k ∈ names t ∨ k = name := by
  rw [names_put]
  split
  · next hn =>
    -- a name that was there adds none
    constructor
    · exact Or.inl
    · rintro (h | rfl)
      · exact h
      · exact hn
  · rw [List.mem_append, List.mem_singleton]

theorem nodup_names_put {t : Table α} (h : (names t).Nodup) (name : String) (v : α) :
    (names (put t name v)).Nodup := by
  rw [names_put]
  split
  · exact h
  · -- a name that was not there is put at the end once
    rename_i hn
    rw [← List.concat_eq_append]
    exact List.Nodup.concat hn h

/-- Of the values put for a name the last one stays. -/
theorem get?_putAll (t entries : Table α) (k : String) :
    get? (putAll t entries) k = (get? entries.reverse k).or (get? t k) := by
  induction entries generalizing t with
  | nil => rfl
  | cons e entries ih =>
    obtain ⟨k', v⟩ := e
    -- what is put first is put over by what comes later
    have hstep : putAll t ((k', v) :: entries) = putAll (put t k' v) entries := rfl
    rw [hstep, ih, get?_put, List.reverse_cons, get?_append, Option.or_assoc]
    congr 1
    rw [get?_cons]
    split <;> rfl

/-- A name that has not come up is put at the end. -/
theorem put_of_not_mem {t : Table α} {name : String} (h : name ∉ names t) (v : α) :
    put t name v = t ++ [(name, v)] := by
  induction t with
  | nil => rfl
  | cons e t ih =>
    obtain ⟨k, w⟩ := e
    rw [names_cons, List.mem_cons, not_or] at h
    rw [put, if_neg (Ne.symm h.1), ih h.2, List.cons_append]

theorem get?_append_cons {before after : Table α} {name : String} {v : α}
    (h : name ∉ names before) : get? (before ++ (name, v) :: after) name = some v := by
  rw [get?_append, get?_eq_none_iff.mpr h, get?_cons, if_pos rfl]
  rfl

/-- The first entry of a name is the one that is found. -/
theorem exists_append_of_get? {t : Table α} {name : String} {v : α} (h : get? t name = some v) :
    ∃ before after, t = before ++ (name, v) :: after ∧ name ∉ names before := by
  induction t with
  | nil => cases h
  | cons e t ih =>
    obtain ⟨k, w⟩ := e
    rw [get?_cons] at h
    split at h
    · next hk =>
      -- the first entry has the name
      subst hk
      obtain rfl := Option.some.inj h
      exact ⟨[], t, rfl, List.not_mem_nil⟩
    · next hk =>
      -- another name stands in front
      obtain ⟨before, after, rfl, hbefore⟩ := ih h
      refine ⟨(k, w) :: before, after, rfl, ?_⟩
      rw [names_cons, List.mem_cons, not_or]
      exact ⟨Ne.symm hk, hbefore⟩

/-- It is also the one that is given a new value. -/
theorem put_append_cons {before after : Table α} {name : String} {w : α}
    (h : name ∉ names before) (v : α) :
    put (before ++ (name, w) :: after) name v = before ++ (name, v) :: after := by
  induction before with
  | nil => rw [List.nil_append, put, if_pos rfl, List.nil_append]
  | cons e before ih =>
    obtain ⟨k, w'⟩ := e
    rw [names_cons, List.mem_cons, not_or] at h
    rw [List.cons_append, put, if_neg (Ne.symm h.1), ih h.2, List.cons_append]

/-- Two names may be given values in either order, if one of them has come up. -/
theorem put_comm {t : Table α} {name k : String} (hne : k ≠ name) (hname : name ∈ names t)
    (v w : α) : (t.put k w).put name v = (t.put name v).put k w := by
  induction t with
  | nil => cases hname
  | cons e t ih =>
    obtain ⟨k', w'⟩ := e
    by_cases hk : k' = name
    · -- the value is put at the place of the name, which stays in front
      subst hk
      simp only [put, if_true, if_neg hne.symm]
    · -- the name is further on, and so the end does not grow
      have htail : name ∈ names t := (List.mem_cons.mp hname).resolve_left (Ne.symm hk)
      by_cases hk' : k' = k
      · subst hk'
        simp only [put, if_true, if_neg hk]
      · simp only [put, if_neg hk, if_neg hk', ih htail]

/-- The second of two values put for a name stays. -/
theorem put_put (t : Table α) (name : String) (v w : α) :
    (t.put name v).put name w = t.put name w := by
  induction t with
  | nil => simp only [put, if_true]
  | cons e t ih =>
    obtain ⟨k, u⟩ := e
    by_cases hk : k = name
    · simp only [put, if_pos hk]
    · simp only [put, if_neg hk, ih]

/-- Putting what is there changes nothing. -/
theorem put_of_get? {t : Table α} {name : String} {v : α} (h : get? t name = some v) :
    t.put name v = t := by
  obtain ⟨before, after, rfl, hbefore⟩ := exists_append_of_get? h
  exact put_append_cons hbefore v

/-- A choice of entries that takes none of a name does not see what is put for it. -/
theorem filter_put {p : String × α → Bool} {name : String} (hp : ∀ v, ¬ p (name, v))
    (t : Table α) (v : α) : (t.put name v).filter p = t.filter p := by
  induction t with
  | nil => exact List.filter_cons_of_neg (hp v)
  | cons e t ih =>
    obtain ⟨k, w⟩ := e
    rw [put]
    split
    · next hk =>
      -- neither the old entry nor the new one is kept by the filter
      subst hk
      rw [List.filter_cons_of_neg (hp v), List.filter_cons_of_neg (hp w)]
    · rw [List.filter_cons, List.filter_cons, ih]

/-- New names, each put once, come after those that are there. -/
theorem putAll_of_not_mem {t entries : Table α} (hnodup : (names entries).Nodup)
    (h : ∀ name ∈ names entries, name ∉ names t) : putAll t entries = t ++ entries := by
  induction entries generalizing t with
  | nil => exact (List.append_nil t).symm
  | cons e entries ih =>
    obtain ⟨k, v⟩ := e
    rw [names_cons, List.nodup_cons] at hnodup
    rw [names_cons, List.forall_mem_cons] at h
    have hstep : putAll t ((k, v) :: entries) = putAll (put t k v) entries := rfl
    -- the first entry is new, and so it goes to the end, before the others
    rw [hstep, put_of_not_mem h.1, ih hnodup.2, List.append_assoc, List.singleton_append]
    intro name hname
    rw [names_append, List.mem_append, not_or]
    refine ⟨h.2 name hname, ?_⟩
    rintro hk
    obtain rfl : name = k := List.mem_singleton.mp hk
    exact hnodup.1 hname

theorem mem_put {t : Table α} {name : String} {v : α} {e : String × α} (h : e ∈ put t name v) :
    e ∈ t ∨ e = (name, v) := by
  induction t with
  | nil => exact Or.inr (List.mem_singleton.mp h)
  | cons e' t ih =>
    obtain ⟨k, w⟩ := e'
    rw [put] at h
    split at h
    · next hk =>
      -- the entry that was replaced
      subst hk
      rcases List.mem_cons.mp h with rfl | hmem
      · exact Or.inr rfl
      · exact Or.inl (List.mem_cons_of_mem _ hmem)
    · rcases List.mem_cons.mp h with rfl | hmem
      · exact Or.inl List.mem_cons_self
      · exact (ih hmem).imp_left (List.mem_cons_of_mem _)

/-! ## What holds of every value -/

/-- No name comes up twice, and `P` holds of every value. -/
structure Each (P : α → Prop) (t : Table α) : Prop where
  nodup : (names t).Nodup
  value : ∀ e ∈ t, P e.2

namespace Each

variable {P Q : α → Prop} {t entries : Table α} {name : String} {v : α}

theorem nil : Each P [] := ⟨List.nodup_nil, fun _ he => nomatch he⟩

theorem mono (h : Each P t) (hPQ : ∀ v, P v → Q v) : Each Q t :=
  ⟨h.nodup, fun e he => hPQ e.2 (h.value e he)⟩

theorem get? (h : Each P t) (hget : Table.get? t name = some v) : P v :=
  h.value _ (mem_of_get? hget)

theorem put (h : Each P t) (name : String) (hv : P v) : Each P (Table.put t name v) := by
  refine ⟨nodup_names_put h.nodup name v, fun e he => ?_⟩
  rcases mem_put he with hold | rfl
  · exact h.value e hold
  · exact hv

theorem putAll (h : Each P t) (hentries : ∀ e ∈ entries, P e.2) :
    Each P (Table.putAll t entries) := by
  induction entries generalizing t with
  | nil => exact h
  | cons e entries ih =>
    obtain ⟨he, hrest⟩ := List.forall_mem_cons.mp hentries
    exact ih (h.put e.1 he) hrest

end Each

theorem putNew_of_mem {t : Table α} {name : String} (h : name ∈ names t) (v : α) :
    putNew t name v = t := by
  unfold putNew
  rw [if_pos (has_iff.mpr h)]

theorem putNew_of_not_mem {t : Table α} {name : String} (h : name ∉ names t) (v : α) :
    putNew t name v = t ++ [(name, v)] := by
  unfold putNew
  rw [if_neg (fun hh => h (has_iff.mp hh))]

theorem prefix_putNew (t : Table α) (name : String) (v : α) : t <+: putNew t name v := by
  unfold putNew
  split
  · exact List.prefix_refl t
  · exact List.prefix_append t _

/-- Entries that are put as new ones leave all that is there in place. -/
theorem prefix_putAllNew (t entries : Table α) : t <+: putAllNew t entries := by
  induction entries generalizing t with
  | nil => exact List.prefix_refl t
  | cons e entries ih => exact (prefix_putNew t e.1 e.2).trans (ih _)

theorem mem_names_putNew {t : Table α} {name k : String} {v : α} :
    k ∈ names (putNew t name v) ↔ k ∈ names t ∨ k = name := by
  by_cases h : name ∈ names t
  · rw [putNew_of_mem h]
    exact ⟨Or.inl, fun hk => hk.elim id fun hk => hk ▸ h⟩
  · have hname : names [(name, v)] = [name] := rfl
    rw [putNew_of_not_mem h, names_append, hname, List.mem_append, List.mem_singleton]

theorem mem_names_putAllNew {t entries : Table α} {k : String} :
    k ∈ names (putAllNew t entries) ↔ k ∈ names t ∨ k ∈ names entries := by
  induction entries generalizing t with
  | nil => exact ⟨Or.inl, fun hk => hk.elim id fun hk => absurd hk List.not_mem_nil⟩
  | cons e entries ih =>
    have hstep : putAllNew t (e :: entries) = putAllNew (putNew t e.1 e.2) entries := rfl
    rw [hstep, ih, mem_names_putNew, names_cons, List.mem_cons, or_assoc]

/-- Names that are all there bring nothing new. -/
theorem putAllNew_of_subset {t entries : Table α} (h : names entries ⊆ names t) :
    putAllNew t entries = t := by
  induction entries with
  | nil => rfl
  | cons e entries ih =>
    obtain ⟨k, v⟩ := e
    rw [names_cons, List.cons_subset] at h
    have hstep : putAllNew t ((k, v) :: entries) = putAllNew (putNew t k v) entries := rfl
    rw [hstep, putNew_of_mem h.1]
    exact ih h.2

section Several

variable {β : Type} {f : β → Table α} {ds : List β} {t : Table α}

theorem mem_names_foldl_putAllNew {k : String} :
    k ∈ names (ds.foldl (fun t d => putAllNew t (f d)) t) ↔
      k ∈ names t ∨ ∃ d ∈ ds, k ∈ names (f d) := by
  induction ds generalizing t with
  | nil => simp
  | cons d ds ih =>
    rw [List.foldl_cons, ih, mem_names_putAllNew, List.exists_mem_cons_iff, or_assoc]

theorem prefix_foldl_putAllNew : t <+: ds.foldl (fun t d => putAllNew t (f d)) t := by
  induction ds generalizing t with
  | nil => exact List.prefix_refl t
  | cons d ds ih => exact (prefix_putAllNew t (f d)).trans ih

theorem foldl_putAllNew_of_subset (h : ∀ d ∈ ds, names (f d) ⊆ names t) :
    ds.foldl (fun t d => putAllNew t (f d)) t = t := by
  induction ds with
  | nil => rfl
  | cons d ds ih =>
    rw [List.foldl_cons, putAllNew_of_subset (h d List.mem_cons_self)]
    exact ih fun d' hd' => h d' (List.mem_cons_of_mem d hd')

end Several

/-- What is appended to a table are new entries, under names that it does not have. -/
theorem exists_putAllNew_eq_append (t entries : Table α) : ∃ added,
    putAllNew t entries = t ++ added ∧ ∀ e ∈ added, e ∈ entries ∧ e.1 ∉ names t := by
  induction entries generalizing t with
  | nil => exact ⟨[], (List.append_nil t).symm, fun e he => absurd he List.not_mem_nil⟩
  | cons e entries ih =>
    obtain ⟨added, heq, hadded⟩ := ih (putNew t e.1 e.2)
    have hstep : putAllNew t (e :: entries) = putAllNew (putNew t e.1 e.2) entries := rfl
    by_cases hmem : e.1 ∈ names t
    · -- the name is there, so the entry adds nothing
      rw [putNew_of_mem hmem] at heq hadded
      refine ⟨added, by rw [hstep, putNew_of_mem hmem, heq], ?_⟩
      intro a ha
      exact ⟨List.mem_cons_of_mem _ (hadded a ha).1, (hadded a ha).2⟩
    · -- the entry is added, and what comes after it has other names
      rw [putNew_of_not_mem hmem] at heq hadded
      refine ⟨e :: added, by rw [hstep, putNew_of_not_mem hmem, heq, List.append_assoc]; rfl, ?_⟩
      intro a ha
      rcases List.mem_cons.mp ha with rfl | ha
      · exact ⟨List.mem_cons_self, hmem⟩
      · refine ⟨List.mem_cons_of_mem _ (hadded a ha).1, ?_⟩
        intro hname
        exact (hadded a ha).2 (by rw [names_append]; exact List.mem_append_left _ hname)

/-- Of the entries for a name that is new only the first one is put. -/
theorem filter_putAllNew {t entries : Table α} {k : String} (h : k ∉ names t) :
    (putAllNew t entries).filter (·.1 = k) = ((get? entries k).map (k, ·)).toList := by
  have hnone : ∀ u : Table α, k ∉ names u → u.filter (·.1 = k) = [] := by
    intro u hu
    rw [List.filter_eq_nil_iff]
    intro e he
    rw [decide_eq_true_eq]
    exact fun hk => hu (hk ▸ List.mem_map_of_mem he)
  induction entries generalizing t with
  | nil => exact hnone t h
  | cons e entries ih =>
    obtain ⟨k', v⟩ := e
    have hstep : putAllNew t ((k', v) :: entries) = putAllNew (putNew t k' v) entries := rfl
    rw [hstep, get?_cons]
    by_cases hk : k' = k
    · -- the entry with the name is added once, since later ones are no longer new
      subst hk
      rw [if_pos rfl, putNew_of_not_mem h]
      obtain ⟨added, heq, hadded⟩ := exists_putAllNew_eq_append (t ++ [(k', v)]) entries
      have hlater : k' ∉ names added := by
        intro hmem
        obtain ⟨e, he, hname⟩ := List.mem_map.mp hmem
        refine (hadded e he).2 ?_
        rw [hname, names_append]
        exact List.mem_append_right _ List.mem_cons_self
      rw [heq, List.filter_append, List.filter_append, hnone t h, hnone added hlater]
      simp
    · -- the filter drops the entry
      rw [if_neg hk]
      refine ih ?_
      rw [mem_names_putNew, not_or]
      exact ⟨h, Ne.symm hk⟩

theorem names_putNew (t : Table α) (name : String) (v : α) :
    names (putNew t name v) = if name ∈ names t then names t else names t ++ [name] := by
  by_cases h : name ∈ names t
  · rw [putNew_of_mem h, if_pos h]
  · rw [putNew_of_not_mem h, if_neg h, names_append]
    rfl

/-- Which names are new, and in what order, does not depend on the values. -/
theorem names_putAllNew_congr {t t' entries entries' : Table α} (h : names t = names t')
    (hentries : names entries = names entries') :
    names (putAllNew t entries) = names (putAllNew t' entries') := by
  induction entries generalizing t t' entries' with
  | nil =>
    have hnil : entries' = [] := List.map_eq_nil_iff.mp hentries.symm
    rw [hnil]
    exact h
  | cons e entries ih =>
    -- entry by entry, the names are the same
    obtain ⟨e', rest', rfl, hname, hrest⟩ := List.map_eq_cons_iff.mp hentries.symm
    have hstep : putAllNew t (e :: entries) = putAllNew (putNew t e.1 e.2) entries := rfl
    have hstep' : putAllNew t' (e' :: rest') = putAllNew (putNew t' e'.1 e'.2) rest' := rfl
    rw [hstep, hstep']
    refine ih ?_ hrest.symm
    rw [names_putNew, names_putNew, h, hname]

/-! ## The first entry of each name -/

/-- The entries that are the first ones of their names, in order. -/
def firsts : Table α → Table α
  | [] => []
  | (k, v) :: rest => (k, v) :: (firsts rest).filter (·.1 ≠ k)

theorem get?_filter_ne {t : Table α} {k name : String} (h : k ≠ name) :
    get? (t.filter (·.1 ≠ k)) name = get? t name := by
  induction t with
  | nil => rfl
  | cons e t ih =>
    obtain ⟨k', v⟩ := e
    by_cases hk : k' = k
    · rw [List.filter_cons_of_neg (by simp [hk]), ih, get?_cons, if_neg (by rw [hk]; exact h)]
    · rw [List.filter_cons_of_pos (by simp [hk]), get?_cons, get?_cons, ih]

/-- Nothing that `get?` sees is lost. -/
theorem get?_firsts (t : Table α) (name : String) : get? (firsts t) name = get? t name := by
  induction t with
  | nil => rfl
  | cons e t ih =>
    obtain ⟨k, v⟩ := e
    rw [firsts, get?_cons, get?_cons]
    by_cases hk : k = name
    · rw [if_pos hk, if_pos hk]
    · rw [if_neg hk, if_neg hk, get?_filter_ne hk, ih]

theorem mem_names_firsts {t : Table α} {name : String} :
    name ∈ names (firsts t) ↔ name ∈ names t := by
  rw [← not_iff_not, ← get?_eq_none_iff, ← get?_eq_none_iff, get?_firsts]

theorem firsts_append_singleton (t : Table α) (k : String) (v : α) :
    firsts (t ++ [(k, v)]) = putNew (firsts t) k v := by
  induction t with
  | nil => rfl
  | cons e t ih =>
    obtain ⟨k', w⟩ := e
    rw [List.cons_append, firsts, ih]
    by_cases hmem : k ∈ names ((k', w) :: t)
    · -- the name came up before, in the first entry or in a later one
      rw [putNew_of_mem (mem_names_firsts.mpr hmem), firsts]
      by_cases hk : k ∈ names t
      · rw [putNew_of_mem (mem_names_firsts.mpr hk)]
      · -- the name is that of the first entry
        have hkk : k = k' := by
          rcases List.mem_cons.mp hmem with h | h
          · exact h
          · exact absurd h hk
        rw [putNew_of_not_mem (fun h => hk (mem_names_firsts.mp h)), List.filter_append,
          List.filter_cons_of_neg (by simp [hkk]), List.filter_nil, List.append_nil]
    · -- the name is new, and goes to the end
      rw [putNew_of_not_mem (fun h => hmem (mem_names_firsts.mp h)), firsts]
      rw [names_cons, List.mem_cons, not_or] at hmem
      rw [putNew_of_not_mem (fun h => hmem.2 (mem_names_firsts.mp h)), List.filter_append,
        List.filter_cons_of_pos (by simp [hmem.1]), List.filter_nil, List.cons_append]

/-- Putting new entries into the first ones of a table is reading on. -/
theorem putAllNew_firsts (t u : Table α) : putAllNew (firsts t) u = firsts (t ++ u) := by
  induction u generalizing t with
  | nil => rw [List.append_nil]; rfl
  | cons e u ih =>
    obtain ⟨k, v⟩ := e
    have hstep : putAllNew (firsts t) ((k, v) :: u) = putAllNew (putNew (firsts t) k v) u := rfl
    rw [hstep, ← firsts_append_singleton, ih, List.append_assoc, List.singleton_append]

theorem foldl_putAllNew_firsts (t : Table α) (us : List (Table α)) :
    us.foldl putAllNew (firsts t) = firsts (t ++ us.flatten) := by
  induction us generalizing t with
  | nil => rw [List.flatten_nil, List.append_nil]; rfl
  | cons u us ih =>
    rw [List.foldl_cons, putAllNew_firsts, ih, List.flatten_cons, List.append_assoc]

/-- What comes later moves nothing. -/
theorem firsts_prefix_append (t u : Table α) : firsts t <+: firsts (t ++ u) := by
  rw [← putAllNew_firsts]
  exact prefix_putAllNew (firsts t) u

/-- The names without repetitions, in the order in which they first came up. -/
theorem names_firsts (t : Table α) : names (firsts t) = (names t).eraseDups := by
  -- from the end, since that is where `firsts` grows
  induction t using List.reverseRecOn with
  | nil => rfl
  | append_singleton t e ih =>
    obtain ⟨k, v⟩ := e
    have hname : names [(k, v)] = [k] := rfl
    rw [firsts_append_singleton, names_append, hname, List.eraseDups_append, ← ih]
    by_cases hk : k ∈ names (firsts t)
    · -- a name that came up before is neither added nor kept twice
      have hremoved : [k].removeAll (names t) = [] := by
        simp [List.removeAll, mem_names_firsts.mp hk]
      rw [putNew_of_mem hk, hremoved, List.eraseDups_nil, List.append_nil]
    · -- a new one stands at the end of both
      have hnew : k ∉ names t := fun h => hk (mem_names_firsts.mpr h)
      have hkept : [k].removeAll (names t) = [k] := by simp [List.removeAll, hnew]
      rw [putNew_of_not_mem hk, names_append, hkept]
      rfl

theorem nodup_names_firsts (t : Table α) : (names (firsts t)).Nodup := by
  induction t using List.reverseRecOn with
  | nil => exact List.nodup_nil
  | append_singleton t e ih =>
    obtain ⟨k, v⟩ := e
    rw [firsts_append_singleton]
    by_cases hk : k ∈ names (firsts t)
    · rwa [putNew_of_mem hk]
    · have hname : names [(k, v)] = [k] := rfl
      rw [putNew_of_not_mem hk, names_append, hname, ← List.concat_eq_append]
      exact List.Nodup.concat hk ih

/-- A table in which no name comes up twice is read as it stands. -/
theorem firsts_of_nodup {t : Table α} (h : (names t).Nodup) : firsts t = t := by
  induction t with
  | nil => rfl
  | cons e t ih =>
    obtain ⟨k, v⟩ := e
    rw [names_cons, List.nodup_cons] at h
    rw [firsts, ih h.2, List.filter_eq_self.mpr]
    -- no later entry has the name of the first one, so none is dropped
    intro e he
    have hne : e.1 ≠ k := by
      intro hk
      exact h.1 (hk ▸ List.mem_map_of_mem he)
    simp [hne]

/-! ## Tables that differ at one name -/

/-- Two tables with the same names in the same order that differ at most in the values of `name`. -/
def SameBut (name : String) (t t' : Table α) : Prop :=
  List.Forall₂ (fun e e' => e.1 = e'.1 ∧ (e.1 ≠ name → e.2 = e'.2)) t t'

theorem SameBut.refl (name : String) (t : Table α) : SameBut name t t := by
  induction t with
  | nil => exact .nil
  | cons e t ih => exact .cons ⟨rfl, fun _ => rfl⟩ ih

theorem SameBut.names {name : String} {t t' : Table α} (h : SameBut name t t') :
    names t = names t' := by
  induction h with
  | nil => rfl
  | cons he _ ih =>
    rw [Table.names, List.map_cons, he.1]
    exact congrArg _ ih

theorem SameBut.put {name k : String} {t t' : Table α} {v v' : α} (h : SameBut name t t')
    (hv : k ≠ name → v = v') : SameBut name (put t k v) (put t' k v') := by
  induction h with
  | nil => exact .cons ⟨rfl, hv⟩ .nil
  | @cons e e' t t' he ht ih =>
    obtain ⟨k₁, w⟩ := e
    obtain ⟨k₁', w'⟩ := e'
    obtain ⟨rfl, hw⟩ := he
    dsimp only at hw
    rw [Table.put, Table.put]
    split
    · -- at the name that is put the values may differ if they may
      next hk => exact .cons ⟨rfl, fun hne => hv (hk ▸ hne)⟩ ht
    · exact .cons ⟨rfl, hw⟩ ih

theorem SameBut.putNew {name : String} {t t' : Table α} (h : SameBut name t t') (k : String)
    (v : α) : SameBut name (putNew t k v) (putNew t' k v) := by
  by_cases hk : k ∈ Table.names t
  · rw [putNew_of_mem hk, putNew_of_mem (h.names ▸ hk)]
    exact h
  · rw [putNew_of_not_mem hk, putNew_of_not_mem (h.names ▸ hk)]
    exact List.rel_append h (.cons ⟨rfl, fun _ => rfl⟩ .nil)

theorem SameBut.putAllNew {name : String} {t t' : Table α} (h : SameBut name t t')
    (entries : Table α) : SameBut name (putAllNew t entries) (putAllNew t' entries) := by
  induction entries generalizing t t' with
  | nil => exact h
  | cons e entries ih => exact ih (h.putNew e.1 e.2)

theorem SameBut.exists_getElem? {name k : String} {v : α} {t t' : Table α} {i : Nat}
    (h : SameBut name t t') (hi : t[i]? = some (k, v)) :
    ∃ v', t'[i]? = some (k, v') ∧ (k ≠ name → v = v') := by
  induction h generalizing i with
  | nil => cases hi
  | @cons e e' t t' he _ ih =>
    cases i with
    | zero =>
      cases hi
      obtain ⟨rfl, hv⟩ := he
      exact ⟨e'.2, rfl, hv⟩
    | succ i => exact ih hi

end Highlight.Table
