import Highlight.Proofs.Pattern.Expression
import Highlight.Rule.Pattern
import Mathlib.Data.List.Basic

/-!
# Where whole words begin and end

The pattern of a whole word is the text of the keyword between two boundaries. What that text
means is told by the reader: an item in front of a well-formed text goes to its first branch
(`Reading.step_lead`), an opening bracket in front puts all of it in a group
(`Reading.step_within`), and both are kept by every step of reading, so that what stands inside is
read as it would be alone. A boundary therefore holds one branch, and the whole keyword only if
there is no other.
-/

namespace Highlight.Pattern

/-! ## Reading behind a beginning -/

/-- A frame whose first branch begins with one more item. -/
def Frame.lead (r : Expression) (f : Frame) : Frame :=
  match f.done with
  | [] => { f with items := r :: f.items }
  | first :: rest => { f with done := (r :: first) :: rest }

theorem Frame.lead_add (r x : Expression) (f : Frame) :
    (f.add x).lead r = (f.lead r).add x := by
  obtain ⟨done, items⟩ := f
  cases done with
  | nil => rfl
  | cons first rest => rfl

theorem Frame.lead_bar (r : Expression) (f : Frame) : f.bar.lead r = (f.lead r).bar := by
  obtain ⟨done, items⟩ := f
  cases done with
  | nil => rfl
  | cons first rest => rfl

theorem Frame.items_lead_ne_nil (r : Expression) {f : Frame} (h : f.items ≠ []) :
    (f.lead r).items ≠ [] := by
  unfold lead
  split
  · exact List.cons_ne_nil r _
  · exact h

/-- Repeating the last item leaves an item in front alone, if it is not the last one itself. -/
theorem Frame.lead_star (r : Expression) {f : Frame} (h : f.items ≠ []) :
    f.star.lead r = (f.lead r).star := by
  obtain ⟨done, items⟩ := f
  obtain ⟨x, hx⟩ := Option.ne_none_iff_exists'.mp (mt List.getLast?_eq_none_iff.mp h)
  dsimp only at h hx
  cases done with
  | nil => simp [star, lead, hx, List.getLast?_cons, List.dropLast_cons_of_ne_nil h]
  | cons first rest => simp [star, lead, hx]

/-- A reading whose first branch begins with one more item. -/
def Reading.lead (r : Expression) (s : Reading) : Reading := { s with root := s.root.lead r }

/-- A reading inside a group that was opened at the beginning. -/
def Reading.within (b : Bool) (s : Reading) : Reading :=
  { s with groups := s.groups ++ [(b, s.root)], root := {} }

namespace Reading

theorem edit_lead {r : Expression} {s : Reading} {e : Frame → Frame}
    (h : s.groups = [] → (e s.root).lead r = e (s.root.lead r)) :
    (s.lead r).edit e = (s.edit e).lead r := by
  obtain ⟨mode, groups, root⟩ := s
  cases groups with
  | nil => simp [edit, lead, h rfl]
  | cons g rest => rfl

theorem edit_within (b : Bool) (s : Reading) (e : Frame → Frame) :
    (s.within b).edit e = (s.edit e).within b := by
  obtain ⟨mode, groups, root⟩ := s
  cases groups with
  | nil => rfl
  | cons g rest => rfl

theorem current_within (b : Bool) (s : Reading) : (s.within b).current = s.current := by
  obtain ⟨mode, groups, root⟩ := s
  cases groups with
  | nil => rfl
  | cons g rest => rfl

/-- What can be done to a reading can be done to it behind one more item. -/
theorem perform?_lead {r : Expression} {s s' : Reading} {action : Action}
    (h : s.perform? action = some s') : (s.lead r).perform? action = some (s'.lead r) := by
  obtain ⟨mode, groups, root⟩ := s
  cases action with
  | wait mode' =>
    obtain rfl := Option.some.inj h
    rfl
  | item x =>
    -- an item is added behind what is led
    obtain rfl := Option.some.inj h
    exact congrArg some (edit_lead fun _ => Frame.lead_add r x _)
  | bar =>
    obtain rfl := Option.some.inj h
    exact congrArg some (edit_lead fun _ => Frame.lead_bar r _)
  | star =>
    simp only [perform?] at h
    split at h
    · cases h
    · rename_i hitems
      obtain rfl := Option.some.inj h
      cases groups with
      | nil =>
        -- outside of groups the item in front must not be the one that is repeated
        have hlead : ((⟨mode, [], root⟩ : Reading).lead r).current.items ≠ [] :=
          Frame.items_lead_ne_nil r hitems
        simp only [perform?, if_neg hlead]
        exact congrArg some (edit_lead fun _ => Frame.lead_star r hitems)
      | cons g rest =>
        -- in a group the items are those of the group, and none is put in front
        have hlead : ((⟨mode, g :: rest, root⟩ : Reading).lead r).current.items ≠ [] := hitems
        simp only [perform?, if_neg hlead]
        rfl
  | opening b =>
    obtain rfl := Option.some.inj h
    rfl
  | closing =>
    -- the group becomes an item of the frame around it
    cases groups with
    | nil => cases h
    | cons g rest =>
      obtain ⟨b, f⟩ := g
      obtain rfl := Option.some.inj h
      exact congrArg some (edit_lead (s := ⟨mode, rest, root⟩) fun _ => Frame.lead_add r _ _)

/-- What can be done to a reading can be done to it inside a group. -/
theorem perform?_within {b : Bool} {s s' : Reading} {action : Action}
    (h : s.perform? action = some s') : (s.within b).perform? action = some (s'.within b) := by
  cases action with
  | wait mode' =>
    obtain rfl := Option.some.inj h
    rfl
  | item x =>
    obtain rfl := Option.some.inj h
    exact congrArg some (edit_within b s _)
  | bar =>
    obtain rfl := Option.some.inj h
    exact congrArg some (edit_within b s _)
  | star =>
    simp only [perform?, current_within] at h ⊢
    split at h
    · cases h
    · rename_i hitems
      obtain rfl := Option.some.inj h
      rw [if_neg hitems, edit_within]
  | opening b' =>
    obtain rfl := Option.some.inj h
    rfl
  | closing =>
    obtain ⟨mode, groups, root⟩ := s
    cases groups with
    | nil => cases h
    | cons g rest =>
      obtain rfl := Option.some.inj h
      exact congrArg some (edit_within b ⟨mode, rest, root⟩ _)

theorem step_lead {r : Expression} {s s' : Reading} {c : Char} (h : s.step c = some s') :
    (s.lead r).step c = some (s'.lead r) := by
  obtain ⟨action, haction, happly⟩ := Option.bind_eq_some_iff.mp h
  exact Option.bind_eq_some_iff.mpr ⟨action, haction, perform?_lead happly⟩

theorem step_within {b : Bool} {s s' : Reading} {c : Char} (h : s.step c = some s') :
    (s.within b).step c = some (s'.within b) := by
  obtain ⟨action, haction, happly⟩ := Option.bind_eq_some_iff.mp h
  exact Option.bind_eq_some_iff.mpr ⟨action, haction, perform?_within happly⟩

/-- What every step carries over, reading on does as well. -/
theorem read_map {g : Reading → Reading}
    (hstep : ∀ {s s' : Reading} {c : Char}, s.step c = some s' → (g s).step c = some (g s'))
    {s s' : Reading} {text : List Char} (h : s.read text = some s') :
    (g s).read text = some (g s') := by
  induction text generalizing s with
  | nil =>
    obtain rfl := Option.some.inj h
    rfl
  | cons c rest ih =>
    obtain ⟨next, hnext, hrest⟩ := Option.bind_eq_some_iff.mp h
    exact Option.bind_eq_some_iff.mpr ⟨g next, hstep hnext, ih hrest⟩

theorem read_append {s s' : Reading} {text : List Char} (h : s.read text = some s')
    (more : List Char) : s.read (text ++ more) = s'.read more := by
  unfold read at h ⊢
  rw [List.foldlM_append, h]
  rfl

end Reading

/-! ## Branches -/

theorem Frame.branches_ne_nil (f : Frame) : f.branches ≠ [] := by
  unfold branches
  exact List.append_ne_nil_of_right_ne_nil _ (List.cons_ne_nil _ _)

theorem Frame.length_branches_lead (r : Expression) (f : Frame) :
    (f.lead r).branches.length = f.branches.length := by
  obtain ⟨done, items⟩ := f
  cases done with
  | nil => rfl
  | cons first rest => rfl

/-- An item in front goes to the first branch. -/
theorem Frame.getElem?_branches_lead (r : Expression) (f : Frame) (k : Nat) :
    (f.lead r).branches[k]? = f.branches[k]?.map ((if k = 0 then [r] else []) ++ ·) := by
  obtain ⟨done, items⟩ := f
  cases done with
  | nil =>
    -- one branch only, which is the first
    cases k with
    | zero => rfl
    | succ k => simp [lead, branches]
  | cons first rest =>
    -- the first branch is led, and the others are not
    cases k with
    | zero => rfl
    | succ k => simp [lead, branches]

/-- An item behind goes to the last branch. -/
theorem Frame.getElem?_branches_add (r : Expression) (f : Frame) (k : Nat) :
    (f.add r).branches[k]?
      = f.branches[k]?.map (· ++ if k + 1 = f.branches.length then [r] else []) := by
  obtain ⟨done, items⟩ := f
  simp only [add, branches, List.length_append, List.length_singleton]
  rcases Nat.lt_trichotomy k done.length with hlt | heq | hgt
  · rw [List.getElem?_append_left hlt, List.getElem?_append_left hlt, if_neg (by omega)]
    simp
  · subst heq
    simp
  · rw [List.getElem?_eq_none (by simp; omega), List.getElem?_eq_none (by simp; omega)]
    rfl

/-! ## What branches match -/

namespace Expression

variable (a : Alphabet) (text : List Char)

theorem matches_sequenceOf_append (xs ys : List Expression) (ignoreCase : Bool) (i j : Nat) :
    (sequenceOf (xs ++ ys)).Matches a text ignoreCase i j ↔
      ∃ k, (sequenceOf xs).Matches a text ignoreCase i k ∧
        (sequenceOf ys).Matches a text ignoreCase k j := by
  induction xs generalizing i with
  | nil =>
    constructor
    · -- nothing is matched by no items
      intro h
      exact ⟨i, rfl, h⟩
    · rintro ⟨k, rfl, h⟩
      exact h
  | cons x xs ih =>
    constructor
    · -- the first item is matched, and the rest splits as before
      rintro ⟨m, hx, hrest⟩
      obtain ⟨k, hxs, hys⟩ := (ih m).mp hrest
      exact ⟨k, ⟨m, hx, hxs⟩, hys⟩
    · rintro ⟨k, ⟨m, hx, hxs⟩, hys⟩
      exact ⟨m, hx, (ih m).mpr ⟨k, hxs, hys⟩⟩

/-- A boundary in front or behind, if there is one, holds the span to it and adds nothing. -/
theorem matches_sequenceOf_boundary (p : Prop) [Decidable p] (ignoreCase : Bool) (i j : Nat) :
    (sequenceOf (if p then [boundary] else [])).Matches a text ignoreCase i j ↔
      i = j ∧ (p → AtBoundary a text i) := by
  by_cases hp : p
  · rw [if_pos hp]
    constructor
    · -- a boundary takes no text
      rintro ⟨k, ⟨rfl, hboundary⟩, rfl⟩
      exact ⟨rfl, fun _ => hboundary⟩
    · rintro ⟨rfl, hboundary⟩
      exact ⟨i, ⟨rfl, hboundary hp⟩, rfl⟩
  · rw [if_neg hp]
    constructor
    · -- no boundary is asked for
      intro h
      exact ⟨h, fun h' => absurd h' hp⟩
    · intro h
      exact h.1

theorem matches_iff_alternatives (r : Expression) (ignoreCase : Bool) (i j : Nat) :
    r.Matches a text ignoreCase i j ↔
      ∃ s ∈ r.alternatives, s.Matches a text ignoreCase i j := by
  induction r with
  | either left right ihl ihr =>
    -- an alternative of a choice is one of either side
    simp only [alternatives, List.mem_append, Matches, ihl, ihr]
    constructor
    · rintro (⟨s, hs, h⟩ | ⟨s, hs, h⟩)
      · exact ⟨s, Or.inl hs, h⟩
      · exact ⟨s, Or.inr hs, h⟩
    · rintro ⟨s, hs | hs, h⟩
      · exact Or.inl ⟨s, hs, h⟩
      · exact Or.inr ⟨s, hs, h⟩
  | _ => simp [alternatives]

theorem alternatives_sequenceOf (items : List Expression) :
    (sequenceOf items).alternatives = [sequenceOf items] := by
  cases items with
  | nil => rfl
  | cons x xs => rfl

theorem alternatives_oneOf {branches : List (List Expression)} (h : branches ≠ []) :
    (oneOf (branches.map sequenceOf)).alternatives = branches.map sequenceOf := by
  induction branches with
  | nil => exact absurd rfl h
  | cons items rest ih =>
    cases rest with
    | nil => exact alternatives_sequenceOf items
    | cons items' rest =>
      have hrest := ih (List.cons_ne_nil _ _)
      -- a branch is never a choice itself, so that the bars are those between branches
      simp only [List.map_cons, oneOf, alternatives, alternatives_sequenceOf] at hrest ⊢
      rw [hrest]
      rfl

end Expression

theorem Frame.alternatives_expression (f : Frame) :
    f.expression.alternatives = f.branches.map Expression.sequenceOf :=
  Expression.alternatives_oneOf f.branches_ne_nil

/-! ## Boundaries on both sides -/

/-- A frame with a boundary in front and one behind. -/
def Frame.fenced (f : Frame) : Frame := (f.lead .boundary).add .boundary

theorem exists_read_of_parse? {text : String} {r : Expression} (h : parse? text = some r) :
    ∃ f, Reading.read {} text.toList = some ⟨.plain, [], f⟩ ∧ f.expression = r := by
  unfold parse? at h
  split at h
  · rename_i f hf
    exact ⟨f, hf, Option.some.inj h⟩
  · cases h

theorem parse?_of_read {text : String} {f : Frame}
    (h : Reading.read {} text.toList = some ⟨.plain, [], f⟩) :
    parse? text = some f.expression := by
  unfold parse?
  rw [h]

theorem read_fenced {keyword : String} {f : Frame}
    (h : Reading.read {} keyword.toList = some ⟨.plain, [], f⟩) :
    Reading.read {} (boundary ++ keyword ++ boundary).toList = some ⟨.plain, [], f.fenced⟩ := by
  have hfront : Reading.read {} boundary.toList = some (Reading.lead .boundary {}) := rfl
  have hkeyword := Reading.read_map (Reading.step_lead (r := .boundary)) h
  rw [String.toList_append, String.toList_append, List.append_assoc,
    Reading.read_append hfront, Reading.read_append hkeyword]
  rfl

/-- A text that is put in a group becomes the only item. -/
theorem read_grouped {b : Bool} {opening text : String} {f : Frame}
    (hopening : Reading.read {} opening.toList = some (Reading.within b {}))
    (h : Reading.read {} text.toList = some ⟨.plain, [], f⟩) :
    Reading.read {} (opening ++ text ++ ")").toList
      = some ⟨.plain, [], ({} : Frame).add (.group b f.expression)⟩ := by
  have htext := Reading.read_map (Reading.step_within (b := b)) h
  rw [String.toList_append, String.toList_append, List.append_assoc,
    Reading.read_append hopening, Reading.read_append htext]
  rfl

section

variable (a : Alphabet) (text : List Char) (ignoreCase : Bool) (i j : Nat)

theorem Expression.matches_grouped (b : Bool) (r : Expression) :
    (({} : Frame).add (.group b r)).expression.Matches a text ignoreCase i j ↔
      r.Matches a text (ignoreCase || b) i j := by
  constructor
  · rintro ⟨k, h, rfl⟩
    exact h
  · intro h
    exact ⟨j, h, rfl⟩

/-- The boundaries hold the branches they stand at, the first and the last one. -/
theorem Frame.matches_fenced (f : Frame) :
    f.fenced.expression.Matches a text ignoreCase i j ↔
      ∃ k s, f.expression.alternatives[k]? = some s ∧ s.Matches a text ignoreCase i j ∧
        (k = 0 → AtBoundary a text i) ∧
        (k + 1 = f.expression.alternatives.length → AtBoundary a text j) := by
  -- what a branch matches with the boundaries that its place gives it
  have hbranch : ∀ (k : Nat) (items : List Expression),
      (Expression.sequenceOf (((if k = 0 then [.boundary] else []) ++ items)
        ++ if k + 1 = f.branches.length then [.boundary] else [])).Matches a text ignoreCase i j ↔
        (Expression.sequenceOf items).Matches a text ignoreCase i j ∧
          (k = 0 → AtBoundary a text i) ∧ (k + 1 = f.branches.length → AtBoundary a text j) := by
    intro k items
    simp only [Expression.matches_sequenceOf_append, Expression.matches_sequenceOf_boundary]
    constructor
    · -- the boundaries take no text, so the branch matches all of it
      rintro ⟨n, ⟨m, ⟨rfl, hfront⟩, hitems⟩, rfl, hback⟩
      exact ⟨hitems, hfront, hback⟩
    · rintro ⟨hitems, hfront, hback⟩
      exact ⟨j, ⟨i, ⟨rfl, hfront⟩, hitems⟩, rfl, hback⟩
  rw [Expression.matches_iff_alternatives, Frame.alternatives_expression,
    Frame.alternatives_expression, List.length_map]
  simp only [List.mem_iff_getElem?, List.getElem?_map, fenced, getElem?_branches_add,
    getElem?_branches_lead, length_branches_lead, Option.map_eq_some_iff]
  constructor
  · -- the branch that matches, without its boundaries
    rintro ⟨_, ⟨k, _, ⟨_, ⟨items, hitems, rfl⟩, rfl⟩, rfl⟩, hmatches⟩
    exact ⟨k, _, ⟨items, hitems, rfl⟩, (hbranch k items).mp hmatches⟩
  · -- and with them
    rintro ⟨k, _, ⟨items, hitems, rfl⟩, hmatches⟩
    exact ⟨_, ⟨k, _, ⟨_, ⟨items, hitems, rfl⟩, rfl⟩, rfl⟩, (hbranch k items).mpr hmatches⟩

end

/-! ## Patterns of whole words -/

section

variable {a : Alphabet} {text : List Char} {ignoreCase : Bool} {i j : Nat}

theorem spans_iff_of_parse? {pattern : String} {r : Expression} (h : parse? pattern = some r) :
    Spans a text pattern ignoreCase i j ↔
      i ≤ text.length ∧ r.Matches a text ignoreCase i j := by
  simp [Spans, h]

/-- What a keyword matches as a whole word. A bar ends the reach of a boundary, so the first one
holds only the first alternative, and the second one only the last. -/
theorem spans_ofKeyword {keyword : String} {r : Expression} (h : parse? keyword = some r) :
    Spans a text (ofKeyword keyword true ignoreCase) false i j ↔
      i ≤ text.length ∧ ∃ k s, r.alternatives[k]? = some s ∧ s.Matches a text ignoreCase i j ∧
        (k = 0 → AtBoundary a text i) ∧
        (k + 1 = r.alternatives.length → AtBoundary a text j) := by
  obtain ⟨f, hread, rfl⟩ := exists_read_of_parse? h
  have hfenced := read_fenced hread
  rw [← Frame.matches_fenced]
  cases ignoreCase with
  | false => exact spans_iff_of_parse? (parse?_of_read hfenced)
  | true =>
    -- the group stands outside the boundaries and makes them no difference
    have hopening : Reading.read {} "(?i:".toList = some (Reading.within true {}) := rfl
    have hgrouped := parse?_of_read (read_grouped hopening hfenced)
    exact (spans_iff_of_parse? hgrouped).trans
      (and_congr_right' (Expression.matches_grouped a text false i j true _))

/-- Both boundaries hold a keyword without an outermost bar. -/
theorem spans_ofKeyword_of_one {keyword : String} {r : Expression} (h : parse? keyword = some r)
    (hone : r.alternatives.length = 1) :
    Spans a text (ofKeyword keyword true ignoreCase) false i j ↔
      Spans a text keyword ignoreCase i j ∧ AtBoundary a text i ∧ AtBoundary a text j := by
  obtain ⟨s, hs⟩ := List.length_eq_one_iff.mp hone
  have hkeyword : r.Matches a text ignoreCase i j ↔ s.Matches a text ignoreCase i j := by
    rw [Expression.matches_iff_alternatives, hs]
    simp only [List.mem_singleton, exists_eq_left]
  rw [spans_ofKeyword h, spans_iff_of_parse? h, hkeyword, hs]
  constructor
  · -- the one alternative is the first and the last
    rintro ⟨hi, k, s', hk, hmatches, hfront, hback⟩
    obtain ⟨rfl, rfl⟩ : k = 0 ∧ s' = s := by
      rw [List.getElem?_singleton, Option.ite_none_right_eq_some] at hk
      exact ⟨hk.1, (Option.some.inj hk.2).symm⟩
    exact ⟨⟨hi, hmatches⟩, hfront rfl, hback rfl⟩
  · -- so both boundaries are asked for
    rintro ⟨⟨hi, hmatches⟩, hfront, hback⟩
    exact ⟨hi, 0, s, rfl, hmatches, fun _ => hfront, fun _ => hback⟩

/-- A keyword as one group. -/
def grouped (keyword : String) : String := "(?:" ++ keyword ++ ")"

theorem exists_parse?_grouped {keyword : String} {r : Expression} (h : parse? keyword = some r) :
    ∃ g, parse? (grouped keyword) = some g ∧ g.alternatives.length = 1 ∧
      (g.Matches a text ignoreCase i j ↔ r.Matches a text ignoreCase i j) := by
  obtain ⟨f, hread, rfl⟩ := exists_read_of_parse? h
  have hopening : Reading.read {} "(?:".toList = some (Reading.within false {}) := rfl
  refine ⟨_, parse?_of_read (read_grouped hopening hread), rfl, ?_⟩
  rw [Expression.matches_grouped, Bool.or_false]

/--
**Boundaries hold the outermost alternatives.** Let a keyword be a well-formed expression. If it has
no outermost bar, its pattern as a whole word matches just the spans that the keyword matches and
that begin and end at boundaries, with case or without; and so it is for every keyword that is put
in a group. Where there are outermost bars, the boundary in front holds the first alternative and
the one behind the last, and what is in between is held by none.
-/
theorem boundaries_hold_outermost_alternatives (a : Alphabet) (text : List Char)
    {keyword : String} {r : Expression} (h : parse? keyword = some r) (ignoreCase : Bool)
    (i j : Nat) :
    (r.alternatives.length = 1 →
      (Spans a text (ofKeyword keyword true ignoreCase) false i j ↔
        Spans a text keyword ignoreCase i j ∧ AtBoundary a text i ∧ AtBoundary a text j)) ∧
    (Spans a text (ofKeyword (grouped keyword) true ignoreCase) false i j ↔
      Spans a text keyword ignoreCase i j ∧ AtBoundary a text i ∧ AtBoundary a text j) ∧
    (Spans a text (ofKeyword keyword true ignoreCase) false i j ↔
      i ≤ text.length ∧ ∃ k s, r.alternatives[k]? = some s ∧ s.Matches a text ignoreCase i j ∧
        (k = 0 → AtBoundary a text i) ∧
        (k + 1 = r.alternatives.length → AtBoundary a text j)) := by
  refine ⟨spans_ofKeyword_of_one h, ?_, spans_ofKeyword h⟩
  obtain ⟨g, hg, hone, hmatches⟩ := exists_parse?_grouped h
  rw [spans_ofKeyword_of_one hg hone, spans_iff_of_parse? hg, spans_iff_of_parse? h, hmatches]

/-- In a text with the word `ABb`, ignoring case, `ab*` matches that word and no part of it. -/
theorem boundaries_hold_outermost_alternatives_of_repetition :
    Spans .ascii "ABb c".toList (ofKeyword "ab*" true true) false 0 3 ∧
      ¬ Spans .ascii "ABb c".toList (ofKeyword "ab*" true true) false 0 2 := by
  have h : parse? "ab*" = some (.sequence (.literal 'a')
    (.sequence (.repeated (.literal 'b')) .empty)) := by decide +kernel
  have hword := fun j =>
    (boundaries_hold_outermost_alternatives .ascii "ABb c".toList h true 0 j).1 rfl
  constructor
  · -- three letters up to a blank
    refine (hword 3).mpr ⟨(spans_iff_of_parse? h).mpr ⟨by decide +kernel, 1, ?_, 3, ?_, rfl⟩,
      by decide +kernel, by decide +kernel⟩
    · exact ⟨rfl, 'A', by decide +kernel, by decide +kernel⟩
    · refine .tail (.single (b := 2) ⟨rfl, 'B', ?_, ?_⟩) ⟨rfl, 'b', ?_, ?_⟩ <;> decide +kernel
  · -- two letters, before another one
    intro hspans
    exact absurd ((hword 2).mp hspans).2.2 (by decide +kernel)

/-- A bar sets an alternative free: the pattern of `a|b` is `\ba|b\b` and matches the `a` of `ax`,
where no word ends. -/
theorem bar_frees_alternative :
    ¬ ∀ (a : Alphabet) (text : List Char) (keyword : String) (r : Expression),
      parse? keyword = some r → ∀ (ignoreCase : Bool) (i j : Nat),
        (Spans a text (ofKeyword keyword true ignoreCase) false i j ↔
          Spans a text keyword ignoreCase i j ∧ AtBoundary a text i ∧ AtBoundary a text j) := by
  intro hclaim
  have h : parse? "a|b" = some (.either (.sequence (.literal 'a') .empty)
    (.sequence (.literal 'b') .empty)) := by decide +kernel
  have hspans : Spans .ascii "ax".toList (ofKeyword "a|b" true false) false 0 1 := by
    refine (spans_ofKeyword h).mpr ⟨by decide +kernel, 0, _, rfl, ?_, ?_, ?_⟩
    · -- the first letter
      exact ⟨1, ⟨rfl, 'a', by decide +kernel, Or.inl rfl⟩, rfl⟩
    · exact fun _ => by decide +kernel
    · exact fun hlast => absurd hlast (by decide +kernel)
  -- behind which no word ends
  have hend : ¬ AtBoundary .ascii "ax".toList 1 := by decide +kernel
  exact hend ((hclaim .ascii _ _ _ h false 0 1).mp hspans).2.2

end

end Highlight.Pattern
