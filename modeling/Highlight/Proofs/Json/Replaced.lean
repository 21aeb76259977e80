import Highlight.Proofs.Json.Route

/-!
# One part of a document replaced

`ReplacedAt old new segments doc doc'` says that two documents are the same but for one part: the
segments lead to `old` in the one and to `new` in the other. Each object that is passed through has
the same members in the same order, and each array the same items, but for the one on the way. This
is what a change along a route does (`walkModify_ok_iff`), and all that it does.
-/

namespace Highlight.Json

/-- The second document is the first with `new` in place of `old`, where the segments lead to. -/
inductive ReplacedAt (old new : Json) : List String → Json → Json → Prop where
  | here : ReplacedAt old new [] old new
  | member {name : String} {rest : List String} {before after : Table Json} {d d' : Json} :
      name ∉ before.names → ReplacedAt old new rest d d' →
      ReplacedAt old new (name :: rest) (.object (before ++ (name, d) :: after))
        (.object (before ++ (name, d') :: after))
  | item {segment : String} {rest : List String} {before after : List Json} {d d' : Json} :
      index? segment = some before.length → ReplacedAt old new rest d d' →
      ReplacedAt old new (segment :: rest) (.array (before ++ d :: after))
        (.array (before ++ d' :: after))

variable {old new doc doc' : Json} {segment : String} {segments rest : List String}

/-- A part of a child is replaced by putting the changed child back. -/
theorem ReplacedAt.cons {d d' : Json} (hc : doc.child? segment = some d)
    (h : ReplacedAt old new rest d d') :
    ReplacedAt old new (segment :: rest) doc (doc.setChild segment d') := by
  cases doc with
  | object members =>
    -- the member that is replaced is the first one of its name
    obtain ⟨before, after, rfl, hbefore⟩ := Table.exists_append_of_get? hc
    rw [setChild, Table.put_append_cons hbefore]
    exact .member hbefore h
  | array items =>
    -- the index tells how many items stand before the one that is replaced
    obtain ⟨i, hi, hitem⟩ := Option.bind_eq_some_iff.mp hc
    obtain ⟨before, after, rfl, rfl⟩ : ∃ before after, items = before ++ d :: after ∧
        before.length = i := by
      obtain ⟨hlt, rfl⟩ := List.getElem?_eq_some_iff.mp hitem
      refine ⟨items.take i, items.drop (i + 1), ?_, List.length_take_of_le (Nat.le_of_lt hlt)⟩
      rw [← List.drop_eq_getElem_cons hlt, List.take_append_drop]
    have hset : (Json.array (before ++ d :: after)).setChild segment d'
        = .array (before ++ d' :: after) := by
      rw [setChild, hi]
      simp
    rw [hset]
    exact .item hi h
  | null => cases hc
  | bool => cases hc
  | number => cases hc
  | string => cases hc

/-- A part under a segment is replaced in the child that the segment leads to. -/
theorem ReplacedAt.exists_child? (h : ReplacedAt old new (segment :: rest) doc doc') :
    ∃ d d', doc.child? segment = some d ∧ doc'.child? segment = some d' ∧
      doc' = doc.setChild segment d' ∧ ReplacedAt old new rest d d' := by
  cases h with
  | @member _ _ before after d d' hbefore h =>
    refine ⟨d, d', Table.get?_append_cons hbefore, Table.get?_append_cons hbefore, ?_, h⟩
    rw [setChild, Table.put_append_cons hbefore]
  | @item _ _ before after d d' hi h =>
    refine ⟨d, d', ?_, ?_, ?_, h⟩
    · rw [child?, hi, Option.bind_some, List.getElem?_append_right (Nat.le_refl _)]
      simp
    · rw [child?, hi, Option.bind_some, List.getElem?_append_right (Nat.le_refl _)]
      simp
    · rw [setChild, hi]
      simp

theorem ReplacedAt.walk_old (h : ReplacedAt old new segments doc doc') :
    doc.walk segments = .ok old := by
  induction segments generalizing doc doc' with
  | nil => cases h; rfl
  | cons segment rest ih =>
    obtain ⟨d, d', hd, _, _, h⟩ := h.exists_child?
    rw [walk, hd]
    exact ih h

theorem ReplacedAt.walk_new (h : ReplacedAt old new segments doc doc') :
    doc'.walk segments = .ok new := by
  induction segments generalizing doc doc' with
  | nil => cases h; rfl
  | cons segment rest ih =>
    obtain ⟨d, d', _, hd', _, h⟩ := h.exists_child?
    rw [walk, hd']
    exact ih h

/-- Whatever a route leads to can be replaced. -/
theorem exists_replacedAt (h : doc.walk segments = .ok old) (new : Json) :
    ∃ doc', ReplacedAt old new segments doc doc' := by
  induction segments generalizing doc with
  | nil =>
    obtain rfl := Except.ok.inj h
    exact ⟨new, .here⟩
  | cons segment rest ih =>
    obtain ⟨d, hd, hwalk⟩ := walk_cons_ok h
    obtain ⟨d', hd'⟩ := ih hwalk
    exact ⟨_, hd'.cons hd⟩

/-- What has members keeps their names and what has none gets none. -/
theorem ReplacedAt.names_object? (h : ReplacedAt old new (segment :: rest) doc doc') :
    doc'.object?.map Table.names = doc.object?.map Table.names := by
  cases h with
  | @member _ _ before after d d' hbefore h =>
    simp only [object?, Option.map_some, Table.names_append, Table.names_cons]
  | item => rfl

/-- Members that the segments do not start with may change alongside. -/
theorem ReplacedAt.put {t grown : Table Json} {name : String} (hne : name ≠ segment)
    (h : ReplacedAt old new (segment :: rest) (.object t) (.object grown)) (v : Json) :
    ReplacedAt old new (segment :: rest) (.object (t.put name v)) (.object (grown.put name v)) := by
  obtain ⟨d, d', hd, _, hset, hrest⟩ := h.exists_child?
  have hget : Table.get? t segment = some d := hd
  have hmem : segment ∈ Table.names t := by
    by_contra hnot
    rw [Table.get?_eq_none_iff.mpr hnot] at hget
    cases hget
  have hchild : (Json.object (t.put name v)).child? segment = some d := by
    rw [child?, Table.get?_put, if_neg hne, hget]
  obtain rfl : grown = t.put segment d' := Json.object.inj hset
  rw [← Table.put_comm hne hmem]
  exact hrest.cons hchild

/-- **A change along a route replaces one part and leaves all else as it is.** -/
theorem walkModify_ok_iff {f : Json → Json} :
    walkModify f doc segments = .ok doc' ↔ ∃ old, ReplacedAt old (f old) segments doc doc' := by
  induction segments generalizing doc doc' with
  | nil =>
    constructor
    · intro h
      obtain rfl := Except.ok.inj h
      exact ⟨doc, .here⟩
    · rintro ⟨old, h⟩
      cases h
      rfl
  | cons segment rest ih =>
    constructor
    · -- the walk replaces the child by what it makes of it
      intro h
      obtain ⟨d, d', hd, hmodify, rfl⟩ := walkModify_cons_ok h
      obtain ⟨old, hold⟩ := ih.mp hmodify
      exact ⟨old, hold.cons hd⟩
    · -- a child that is replaced is what the walk finds
      rintro ⟨old, h⟩
      obtain ⟨d, d', hd, _, rfl, hrest⟩ := h.exists_child?
      rw [walkModify_cons hd, ih.mpr ⟨old, hrest⟩]
      rfl

/-- There is one way only to replace a part by another. -/
theorem ReplacedAt.unique {doc₁ doc₂ : Json} (h₁ : ReplacedAt old new segments doc doc₁)
    (h₂ : ReplacedAt old new segments doc doc₂) : doc₁ = doc₂ := by
  have hmodify₁ : walkModify (fun _ => new) doc segments = .ok doc₁ :=
    walkModify_ok_iff.mpr ⟨old, h₁⟩
  have hmodify₂ : walkModify (fun _ => new) doc segments = .ok doc₂ :=
    walkModify_ok_iff.mpr ⟨old, h₂⟩
  exact Except.ok.inj (hmodify₁.symm.trans hmodify₂)

end Highlight.Json
