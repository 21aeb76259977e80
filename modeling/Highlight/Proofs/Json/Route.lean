import Highlight.Json.Route
import Highlight.Proofs.Success
import Highlight.Proofs.Table

/-!
# What a change along a route touches

`walkModify` is opened one segment at a time: the segment leads to a child, the rest of the route is
followed in there, and the changed child is put back. So a change along a route is seen under its
first segment only, and there it is the change along the rest of the route.
-/

namespace Highlight.Json

variable {f : Json → Json}

theorem member?_object (members : Table Json) (name : String) :
    (object members).member? name = members.get? name := rfl

/-- A document that has members is an object. -/
theorem exists_object_of_member? {doc d : Json} {name : String} (h : doc.member? name = some d) :
    ∃ members : Table Json, doc = object members ∧ members.get? name = some d := by
  cases doc with
  | object members => exact ⟨members, rfl, h⟩
  | null => cases h
  | bool => cases h
  | number => cases h
  | string => cases h
  | array => cases h

theorem walk_cons {doc child : Json} {segment : String} (h : doc.child? segment = some child)
    (rest : List String) : doc.walk (segment :: rest) = child.walk rest := by
  rw [walk, h]

theorem walk_cons_ok {doc part : Json} {segment : String} {rest : List String}
    (h : walk doc (segment :: rest) = .ok part) :
    ∃ child, doc.child? segment = some child ∧ walk child rest = .ok part := by
  rw [walk] at h
  split at h
  · rename_i child hc
    exact ⟨child, hc, h⟩
  · cases h

/-- A route is followed by following its parts one after another. -/
theorem walk_append (doc : Json) (first rest : List String) :
    doc.walk (first ++ rest) = doc.walk first >>= (·.walk rest) := by
  induction first generalizing doc with
  | nil => rfl
  | cons segment first ih =>
    rw [List.cons_append, walk, walk]
    cases doc.child? segment with
    | none => rfl
    | some child => exact ih child

/-- A route that cannot be followed leads to a part that lacks the segment that is told. -/
theorem walk_error_iff {doc : Json} {segments : List String} {segment : String} :
    doc.walk segments = .error segment ↔ ∃ before after node,
      segments = before ++ segment :: after ∧ doc.walk before = .ok node ∧
        node.child? segment = none := by
  constructor
  · intro h
    induction segments generalizing doc with
    | nil => cases h
    | cons s rest ih =>
      cases hc : doc.child? s with
      | none =>
        -- the walk stops here, so that nothing comes before the segment
        rw [walk, hc] at h
        obtain rfl := Except.error.inj h
        exact ⟨[], rest, doc, rfl, rfl, hc⟩
      | some child =>
        rw [walk_cons hc] at h
        obtain ⟨before, after, node, rfl, hwalk, hnone⟩ := ih h
        exact ⟨s :: before, after, node, rfl, (walk_cons hc before).trans hwalk, hnone⟩
  · -- what comes before the segment is walked to the node that has no such child
    rintro ⟨before, after, node, rfl, hwalk, hnone⟩
    rw [walk_append, hwalk]
    change node.walk (segment :: after) = _
    rw [walk, hnone]

theorem splitDots_ne_nil (text : List Char) : splitDots text ≠ [] := by
  cases text with
  | nil => exact List.cons_ne_nil _ _
  | cons c rest =>
    rw [splitDots]
    split
    · exact List.cons_ne_nil _ _
    · split <;> exact List.cons_ne_nil _ _

theorem splitDots_append_dot (first rest : List Char) :
    splitDots (first ++ '.' :: rest) = splitDots first ++ splitDots rest := by
  induction first with
  | nil =>
    have hdot : splitDots ('.' :: rest) = [] :: splitDots rest := by rw [splitDots, if_pos rfl]
    exact hdot
  | cons c first ih =>
    rw [List.cons_append, splitDots, splitDots, ih]
    split
    · rfl
    · cases hs : splitDots first with
      | nil => exact absurd hs (splitDots_ne_nil first)
      | cons piece pieces => rfl

/-- The segments on both sides of a dot are those of the two paths. -/
theorem route_append_dot (first rest : String) :
    route (first ++ "." ++ rest) = route first ++ route rest := by
  have htext : (first ++ "." ++ rest).toList = first.toList ++ '.' :: rest.toList := by
    simp
  rw [route, htext, splitDots_append_dot, List.filter_append, List.map_append]
  rfl

theorem walkModify_cons {doc child : Json} {segment : String} (h : doc.child? segment = some child)
    (rest : List String) :
    walkModify f doc (segment :: rest) = (walkModify f child rest).map (doc.setChild segment) := by
  rw [walkModify, h]

theorem walkModify_cons_ok {doc doc' : Json} {segment : String} {rest : List String}
    (h : walkModify f doc (segment :: rest) = .ok doc') : ∃ child child',
      doc.child? segment = some child ∧ walkModify f child rest = .ok child' ∧
        doc' = doc.setChild segment child' := by
  rw [walkModify] at h
  split at h
  · rename_i child hc
    obtain ⟨child', hm, hset⟩ := exists_of_map_ok h
    exact ⟨child, child', hc, hm, hset.symm⟩
  · cases h

theorem member?_setChild_ne {doc part : Json} {segment name : String} (h : segment ≠ name) :
    (doc.setChild segment part).member? name = doc.member? name := by
  unfold setChild
  split
  · rw [member?_object, member?_object, Table.get?_put, if_neg h]
  · split <;> rfl
  · rfl

/-- A change along a route leaves the members alone that it does not start with. -/
theorem member?_walkModify_ne {doc doc' : Json} {segment name : String} {rest : List String}
    (h : walkModify f doc (segment :: rest) = .ok doc') (hne : segment ≠ name) :
    doc'.member? name = doc.member? name := by
  obtain ⟨child, child', _, _, rfl⟩ := walkModify_cons_ok h
  exact member?_setChild_ne hne

/-- The member that a route starts with is changed along the rest of it. -/
theorem member?_walkModify_self {doc doc' d : Json} {segment : String} {rest : List String}
    (h : walkModify f doc (segment :: rest) = .ok doc') (hd : doc.member? segment = some d) :
    ∃ d', walkModify f d rest = .ok d' ∧ doc'.member? segment = some d' := by
  obtain ⟨child, child', hc, hm, rfl⟩ := walkModify_cons_ok h
  obtain ⟨members, rfl, hget⟩ := exists_object_of_member? hd
  obtain rfl : child = d := Option.some.inj (hc.symm.trans hget)
  refine ⟨child', hm, ?_⟩
  rw [setChild, member?_object, Table.get?_put, if_pos rfl]

end Highlight.Json
