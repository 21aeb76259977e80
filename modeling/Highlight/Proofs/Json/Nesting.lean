import Highlight.Proofs.Json.Integer
import Highlight.Proofs.Json.Route

/-!
# How deep documents nest

`nesting` counts the containers that stand inside each other. A reader that is given a depth makes
documents that nest no deeper, and in no object of them a name comes up twice, since members are
gathered by `put`. `Within` says so of a document, and `yields_value` that it holds of all that is
read. It goes down to the parts of a document one container at a time, and a change along a route
keeps it as far as the part at its end does (`within_walkModify`).
-/

namespace Highlight.Json

mutual

/-- How many containers stand inside each other. -/
def nesting : Json → Nat
  | array items => nestingOfItems items + 1
  | object members => nestingOfMembers members + 1
  | _ => 0

/-- The deepest nesting of the items. -/
def nestingOfItems : List Json → Nat
  | [] => 0
  | item :: rest => max (nesting item) (nestingOfItems rest)

/-- The deepest nesting of the values. -/
def nestingOfMembers : List (String × Json) → Nat
  | [] => 0
  | (_, v) :: rest => max (nesting v) (nestingOfMembers rest)

end

variable {depth depth' : Nat} {items : List Json} {members : Table Json} {doc : Json}

theorem nesting_array_le_iff :
    (array items).nesting ≤ depth + 1 ↔ ∀ item ∈ items, item.nesting ≤ depth := by
  rw [nesting, Nat.add_le_add_iff_right]
  induction items with
  | nil => simp [nestingOfItems]
  | cons item rest ih => rw [nestingOfItems, Nat.max_le, ih, List.forall_mem_cons]

theorem nesting_object_le_iff :
    (object members).nesting ≤ depth + 1 ↔ ∀ e ∈ members, e.2.nesting ≤ depth := by
  rw [nesting, Nat.add_le_add_iff_right]
  induction members with
  | nil => simp [nestingOfMembers]
  | cons e rest ih => rw [nestingOfMembers, Nat.max_le, ih, List.forall_mem_cons]

/-! ## Documents within a depth -/

/--
At most `depth` containers stand inside each other, no object has a name twice and all integers fit.
-/
inductive Within : (depth : Nat) → Json → Prop where
  | null {depth : Nat} : Within depth null
  | bool {depth : Nat} {b : Bool} : Within depth (bool b)
  | number {depth : Nat} {n : Number} : n.Fits → Within depth (number n)
  | string {depth : Nat} {s : String} : Within depth (string s)
  | array {depth : Nat} {items : List Json} :
      (∀ item ∈ items, Within depth item) → Within (depth + 1) (array items)
  | object {depth : Nat} {members : List (String × Json)} :
      (Table.names members).Nodup → (∀ e ∈ members, Within depth e.2) →
      Within (depth + 1) (object members)

theorem within_array_iff :
    Within (depth + 1) (array items) ↔ ∀ item ∈ items, Within depth item := by
  constructor
  · rintro ⟨⟩
    assumption
  · exact .array

theorem within_object_iff : Within (depth + 1) (object members) ↔ members.Each (Within depth) := by
  constructor
  · rintro ⟨⟩
    exact ⟨‹_›, ‹_›⟩
  · rintro ⟨hnodup, hvalue⟩
    exact .object hnodup hvalue

theorem Within.nesting_le (h : Within depth doc) : doc.nesting ≤ depth := by
  induction h with
  | null => exact Nat.zero_le _
  | bool => exact Nat.zero_le _
  | number => exact Nat.zero_le _
  | string => exact Nat.zero_le _
  | array _ ih => exact nesting_array_le_iff.mpr ih
  | object _ _ ih => exact nesting_object_le_iff.mpr ih

/-- What nests no deeper is within a smaller depth. -/
theorem Within.of_nesting_le (h : Within depth doc) (hle : doc.nesting ≤ depth') :
    Within depth' doc := by
  induction h generalizing depth' with
  | null => exact .null
  | bool => exact .bool
  | number hn => exact .number hn
  | string => exact .string
  | array _ ih =>
    -- the bound counts the array, so that one is left for its items
    cases depth' with
    | zero => exact absurd hle (Nat.not_succ_le_zero _)
    | succ depth' =>
      have hitems := nesting_array_le_iff.mp hle
      exact .array fun item hmem => ih item hmem (hitems item hmem)
  | object hnodup _ ih =>
    cases depth' with
    | zero => exact absurd hle (Nat.not_succ_le_zero _)
    | succ depth' =>
      have hmembers := nesting_object_le_iff.mp hle
      exact .object hnodup fun e hmem => ih e hmem (hmembers e hmem)

theorem Within.mono (h : Within depth doc) (hle : depth ≤ depth') : Within depth' doc :=
  h.of_nesting_le (Nat.le_trans h.nesting_le hle)

/-! ## Documents that were read -/

/-- One more container around what is read within a depth. -/
theorem yields_value_of_inner
    (hinner : ∀ inner, depth = inner + 1 → Yields (value inner) (Within inner)) :
    Yields (value depth) (Within depth) := by
  intro text doc rest hread
  rw [value] at hread
  split at hread
  · cases hread
  · -- a word, a text and a number are one value each
    obtain ⟨_, _, hread⟩ := exists_of_bind_ok hread
    obtain ⟨rfl, _⟩ := Prod.mk.inj (Except.ok.inj hread)
    exact .null
  · obtain ⟨_, _, hread⟩ := exists_of_bind_ok hread
    obtain ⟨rfl, _⟩ := Prod.mk.inj (Except.ok.inj hread)
    exact .bool
  · obtain ⟨_, _, hread⟩ := exists_of_bind_ok hread
    obtain ⟨rfl, _⟩ := Prod.mk.inj (Except.ok.inj hread)
    exact .bool
  · obtain ⟨_, _, hread⟩ := exists_of_bind_ok hread
    obtain ⟨rfl, _⟩ := Prod.mk.inj (Except.ok.inj hread)
    exact .string
  · -- a container takes one from the depth, which what stands in it is read with
    cases depth with
    | zero => cases hread
    | succ depth =>
      obtain ⟨⟨items, _⟩, hitems, hread⟩ := exists_of_bind_ok hread
      obtain ⟨rfl, _⟩ := Prod.mk.inj (Except.ok.inj hread)
      exact .array (yields_items (hinner depth rfl) _ _ _ hitems)
  · cases depth with
    | zero => cases hread
    | succ depth =>
      obtain ⟨⟨members, _⟩, hmembers, hread⟩ := exists_of_bind_ok hread
      obtain ⟨rfl, _⟩ := Prod.mk.inj (Except.ok.inj hread)
      -- a member that is read is put to those before it
      refine within_object_iff.mpr (yields_members ?_ .nil _ _ _ hmembers)
      intro table name htable
      refine yields_afterColon fun text table' rest hread => ?_
      obtain ⟨⟨v, _⟩, hv, hread⟩ := exists_of_bind_ok hread
      obtain ⟨rfl, _⟩ := Prod.mk.inj (Except.ok.inj hread)
      exact htable.put name (hinner depth rfl _ _ _ hv)
  · obtain ⟨⟨n, _⟩, hn, hread⟩ := exists_of_bind_ok hread
    obtain ⟨rfl, _⟩ := Prod.mk.inj (Except.ok.inj hread)
    exact .number (yields_unsigned true _ _ _ hn)
  · split at hread
    · obtain ⟨⟨n, _⟩, hn, hread⟩ := exists_of_bind_ok hread
      obtain ⟨rfl, _⟩ := Prod.mk.inj (Except.ok.inj hread)
      exact .number (yields_unsigned false _ _ _ hn)
    · cases hread

/-- **What is read nests no deeper than the reader goes, and has no name twice.** -/
theorem yields_value (depth : Nat) : Yields (value depth) (Within depth) := by
  induction depth with
  | zero => exact yields_value_of_inner fun _ h => nomatch h
  | succ depth ih =>
    refine yields_value_of_inner fun inner hinner => ?_
    obtain rfl := Nat.succ.inj hinner
    exact ih

theorem within_of_read {text : String} (h : read text = .ok doc) : Within maxDepth doc := by
  obtain ⟨⟨doc', rest⟩, hread, h⟩ := exists_of_bind_ok h
  dsimp only at h
  split at h
  · obtain rfl := Except.ok.inj h
    exact yields_value _ _ _ _ hread
  · cases h

/-! ## Changes along a route -/

/-- A part stands in a container. -/
theorem Within.child? {segment : String} {part : Json} (h : Within depth doc)
    (hpart : doc.child? segment = some part) : ∃ inner, depth = inner + 1 ∧ Within inner part := by
  cases h with
  | @array inner items hitems =>
    obtain ⟨i, _, hi⟩ := Option.bind_eq_some_iff.mp hpart
    exact ⟨inner, rfl, hitems part (List.mem_of_getElem? hi)⟩
  | @object inner members hnodup hvalue =>
    exact ⟨inner, rfl, (Table.Each.mk hnodup hvalue).get? hpart⟩
  | _ => cases hpart

/-- A part may be replaced by one that nests deeper, and so does the whole then. -/
theorem Within.setChild (h : Within (depth + 1) doc) (segment : String) {part : Json}
    (hpart : Within depth' part) (hle : depth ≤ depth') :
    Within (depth' + 1) (doc.setChild segment part) := by
  have hdoc : Within (depth' + 1) doc := h.mono (Nat.succ_le_succ hle)
  unfold Json.setChild
  split
  · exact within_object_iff.mpr ((within_object_iff.mp hdoc).put segment hpart)
  · split
    · refine within_array_iff.mpr fun item hmem => ?_
      rcases List.mem_or_eq_of_mem_set hmem with hold | rfl
      · exact within_array_iff.mp hdoc item hold
      · exact hpart
    · exact hdoc
  · exact hdoc

/--
**What a change along a route does to the nesting.** Every segment leads into a container, and what
the change adds to the nesting of the part at the end it adds to the whole at most.
-/
theorem within_walkModify {f : Json → Json} {doc' : Json} {segments : List String}
    (h : walkModify f doc segments = .ok doc') (hdoc : Within depth doc) :
    ∃ inner part, depth = segments.length + inner ∧ Within inner part ∧
      ∀ inner', inner ≤ inner' → Within inner' (f part) →
        Within (segments.length + inner') doc' := by
  induction segments generalizing doc doc' depth with
  | nil =>
    obtain rfl := Except.ok.inj h
    -- the route ends here, and the part is the whole document
    refine ⟨depth, doc, (Nat.zero_add _).symm, hdoc, fun inner' _ hf => ?_⟩
    rwa [List.length_nil, Nat.zero_add]
  | cons segment rest ih =>
    obtain ⟨child, child', hchild, hmodify, rfl⟩ := walkModify_cons_ok h
    obtain ⟨depth, rfl, hwithin⟩ := hdoc.child? hchild
    obtain ⟨inner, part, rfl, hpart, hchange⟩ := ih hmodify hwithin
    -- one segment leads one level down, before the change and after it
    refine ⟨inner, part, ?_, hpart, fun inner' hle hf => ?_⟩
    · rw [List.length_cons, Nat.add_right_comm]
    · rw [List.length_cons, Nat.add_right_comm]
      exact hdoc.setChild segment (hchange inner' hle hf) (Nat.add_le_add_left hle _)

end Highlight.Json
