import Highlight.Proofs.Json.Replaced

/-!
# Reading and writing along a path

A path that can be followed is a lens: what it leads to can be read and written. Writing what was
read changes nothing, what was written is read, and of two writes the second stays. These laws are
those of a single segment, handed on along the route.

What a write cannot reach takes more to say, since paths are text: an index has many spellings, and
the same segment is a name in an object and an index in an array. So paths are compared by their
trails in the document, the keys that their segments stand for where they are met, up to the first
one that leads nowhere. A path whose trail parts from that of the written one is followed as before,
or fails as before (`ReplacedAt.walk_of_apart`).
-/

namespace Highlight.Json

variable {old new v w doc doc' doc'' node part : Json} {segment s path : String}
  {segments rest : List String} {f : Json → Json}

/-- The document with `v` where a path leads to. -/
def write (doc : Json) (path : String) (v : Json) : Except Missing Json :=
  doc.modify path fun _ => v

/-! ## Writing once and again -/

theorem setChild_setChild (doc : Json) (segment : String) (v w : Json) :
    (doc.setChild segment v).setChild segment w = doc.setChild segment w := by
  cases doc with
  | object members => rw [setChild, setChild, setChild, Table.put_put]
  | array items =>
    cases hi : index? segment with
    | none => simp only [setChild, hi]
    | some i => simp only [setChild, hi, List.set_set]
  | _ => rfl

/-- What is replaced by itself is not changed. -/
theorem ReplacedAt.eq_self (h : ReplacedAt old old segments doc doc') : doc' = doc := by
  induction h with
  | here => rfl
  | member _ _ ih => rw [ih]
  | item _ _ ih => rw [ih]

/-- Of two replacements at one place the second stays. -/
theorem ReplacedAt.trans (h : ReplacedAt old v segments doc doc')
    (h' : ReplacedAt v w segments doc' doc'') : ReplacedAt old w segments doc doc'' := by
  induction segments generalizing doc doc' doc'' with
  | nil =>
    cases h
    cases h'
    exact .here
  | cons segment rest ih =>
    obtain ⟨d, d', hd, hd', rfl, hrest⟩ := h.exists_child?
    obtain ⟨e, d'', he, _, rfl, hrest'⟩ := h'.exists_child?
    obtain rfl : d' = e := Option.some.inj (hd'.symm.trans he)
    rw [setChild_setChild]
    exact (ih hrest hrest').cons hd

/-! ## Trails -/

/-- What a segment stands for where it is met. -/
inductive Key where
  /-- A member of an object. -/
  | name (name : String)
  /-- An item of an array, however its index is spelt. -/
  | index (i : Nat)
  /-- Nothing: the segment is no index, or there is nothing to choose from. -/
  | nothing (segment : String)
  deriving DecidableEq

/-- The key that a segment stands for in a document. -/
def key (doc : Json) (segment : String) : Key :=
  match doc with
  | object _ => .name segment
  | array _ =>
    match index? segment with
    | some i => .index i
    | none => .nothing segment
  | _ => .nothing segment

/-- The keys that segments stand for one after another, up to the first that leads nowhere. -/
def trail (doc : Json) : List String → List Key
  | [] => []
  | segment :: rest =>
    doc.key segment ::
      match doc.child? segment with
      | some part => trail part rest
      | none => []

/-- Two trails part: neither of them goes on where the other ends. -/
def Apart (t t' : List Key) : Prop := ¬ t <+: t' ∧ ¬ t' <+: t

instance (t t' : List Key) : Decidable (Apart t t') := inferInstanceAs (Decidable (_ ∧ _))

theorem trail_cons (h : doc.child? segment = some part) (rest : List String) :
    doc.trail (segment :: rest) = doc.key segment :: part.trail rest := by
  rw [trail, h]

/-- Segments that stand for the same key lead to the same part. -/
theorem child?_congr (h : doc.key s = doc.key segment) : doc.child? s = doc.child? segment := by
  cases doc with
  | object members =>
    obtain rfl := Key.name.inj h
    rfl
  | array items =>
    have hindex : index? s = index? segment := by
      cases hi : index? segment <;> cases hj : index? s <;> simp only [key, hi, hj] at h <;>
        cases h <;> rfl
    rw [child?, child?, hindex]
  | _ => rfl

/-- What stands for which key is not changed by a write below. -/
theorem key_setChild (doc : Json) (segment : String) (part : Json) :
    (doc.setChild segment part).key = doc.key := by
  cases doc with
  | array items =>
    rw [setChild]
    split <;> rfl
  | _ => rfl

theorem child?_setChild_ne (h : doc.key s ≠ doc.key segment) (part : Json) :
    (doc.setChild segment part).child? s = doc.child? s := by
  cases doc with
  | object members =>
    -- two names of one object are two members
    have hne : segment ≠ s := fun heq => h (congrArg Key.name heq.symm)
    rw [setChild, child?, child?, Table.get?_put, if_neg hne]
  | array items =>
    -- a name is no index, so that nothing is set
    cases hi : index? segment with
    | none => simp only [setChild, hi]
    | some i =>
      cases hj : index? s with
      | none => simp only [setChild, child?, hi, hj, Option.bind_none]
      | some j =>
        -- two indices of one array are two items
        have hne : i ≠ j := by
          rintro rfl
          exact h (by simp only [key, hi, hj])
        simp only [setChild, child?, hi, hj, Option.bind_some]
        exact List.getElem?_set_ne hne
  | _ => rfl

/-- **A replacement leaves alone what other trails lead to, and where they fail.** -/
theorem ReplacedAt.walk_of_apart (h : ReplacedAt old new segments doc doc') {other : List String}
    (hapart : Apart (doc.trail segments) (doc.trail other)) : doc'.walk other = doc.walk other := by
  induction segments generalizing doc doc' other with
  | nil => exact absurd List.nil_prefix hapart.1
  | cons segment rest ih =>
    obtain ⟨d, d', hd, hd', rfl, hrest⟩ := h.exists_child?
    cases other with
    | nil => exact absurd List.nil_prefix hapart.2
    | cons s later =>
      by_cases hkey : doc.key s = doc.key segment
      · -- both go on below the same part
        have hs : doc.child? s = some d := (child?_congr hkey).trans hd
        have hkey' : (doc.setChild segment d').key s = (doc.setChild segment d').key segment := by
          rw [key_setChild, hkey]
        have hs' : (doc.setChild segment d').child? s = some d' := (child?_congr hkey').trans hd'
        rw [trail_cons hd, trail_cons hs, hkey, Apart, List.prefix_cons_inj,
          List.prefix_cons_inj] at hapart
        rw [walk_cons hs, walk_cons hs']
        exact ih hrest hapart
      · -- the ways part here
        rw [walk, walk, child?_setChild_ne hkey]

/-! ## The laws of a path -/

theorem walkModify_error_iff :
    walkModify f doc segments = .error segment ↔ doc.walk segments = .error segment := by
  induction segments generalizing doc with
  | nil => simp only [walkModify, walk, reduceCtorEq]
  | cons s rest ih =>
    cases hc : doc.child? s with
    | none => rw [walk, walkModify, hc]
    | some d =>
      rw [walk_cons hc, walkModify_cons hc, ← ih]
      cases walkModify f d rest with
      | error => rfl
      | ok => simp only [Except.map, reduceCtorEq]

/-- The failure of a path names the path and the segment at which it ends. -/
theorem mapError_missing_iff {α : Type} {x : Except String α} {missing : Missing} :
    x.mapError (⟨·, path⟩) = .error missing ↔
      missing.path = path ∧ x = .error missing.segment := by
  rw [mapError_error_iff]
  constructor
  · rintro ⟨segment, hx, rfl⟩
    exact ⟨rfl, hx⟩
  · rintro ⟨rfl, hx⟩
    exact ⟨_, hx, rfl⟩

theorem follow_ok_iff : doc.follow path = .ok node ↔ doc.walk (route path) = .ok node :=
  mapError_ok_iff

theorem modify_ok_iff : doc.modify path f = .ok doc' ↔
    ∃ old, ReplacedAt old (f old) (route path) doc doc' := by
  rw [modify, mapError_ok_iff, walkModify_ok_iff]

theorem modify_error_iff {missing : Missing} :
    doc.modify path f = .error missing ↔ doc.follow path = .error missing := by
  rw [modify, follow, mapError_missing_iff, mapError_missing_iff, walkModify_error_iff]

theorem write_ok_iff : doc.write path v = .ok doc' ↔
    ∃ old, ReplacedAt old v (route path) doc doc' := modify_ok_iff

/-- What can be read can be written. -/
theorem exists_write (h : doc.follow path = .ok node) (v : Json) :
    ∃ doc', doc.write path v = .ok doc' ∧ ReplacedAt node v (route path) doc doc' := by
  obtain ⟨doc', hdoc'⟩ := exists_replacedAt (follow_ok_iff.mp h) v
  exact ⟨doc', write_ok_iff.mpr ⟨node, hdoc'⟩, hdoc'⟩

/-- A change in place is a write of what was read, changed. -/
theorem modify_eq_write (h : doc.follow path = .ok node) (f : Json → Json) :
    doc.modify path f = doc.write path (f node) := by
  obtain ⟨doc', hwrite, hdoc'⟩ := exists_write h (f node)
  rw [hwrite]
  exact modify_ok_iff.mpr ⟨node, hdoc'⟩

theorem write_write (h : doc.write path v = .ok doc') (w : Json) :
    doc'.write path w = doc.write path w := by
  obtain ⟨old, hold⟩ := write_ok_iff.mp h
  obtain ⟨doc'', hdoc''⟩ := exists_replacedAt hold.walk_new w
  rw [write_ok_iff.mpr ⟨v, hdoc''⟩, write_ok_iff.mpr ⟨old, hold.trans hdoc''⟩]

theorem follow_write_of_apart (h : doc.write path v = .ok doc') {other : String}
    (hapart : Apart (doc.trail (route path)) (doc.trail (route other))) :
    doc'.follow other = doc.follow other := by
  obtain ⟨old, hold⟩ := write_ok_iff.mp h
  rw [follow, follow, hold.walk_of_apart hapart]

/--
**A path is a lens.** It can be written where it can be read, and else both fail with the first
segment that leads nowhere from where those before it lead. A change in place is a read and a write.
Writing what was read changes nothing, what was written is read, of two writes the second stays, and
a path whose trail parts from that of the written one is followed, or fails, as before.
-/
theorem path_is_lens (doc : Json) (path : String) :
    (∀ f missing, doc.modify path f = .error missing ↔ doc.follow path = .error missing) ∧
    (∀ missing, doc.follow path = .error missing ↔ missing.path = path ∧ ∃ before after node,
      route path = before ++ missing.segment :: after ∧ doc.walk before = .ok node ∧
        node.child? missing.segment = none) ∧
    ∀ node, doc.follow path = .ok node →
      (∀ f, doc.modify path f = doc.write path (f node)) ∧
      doc.write path node = .ok doc ∧
      ∀ v, ∃ doc', doc.write path v = .ok doc' ∧ doc'.follow path = .ok v ∧
        (∀ w, doc'.write path w = doc.write path w) ∧
        ∀ other, Apart (doc.trail (route path)) (doc.trail (route other)) →
          doc'.follow other = doc.follow other := by
  refine ⟨fun f missing => modify_error_iff, fun missing => ?_, fun node hnode => ⟨?_, ?_, ?_⟩⟩
  · rw [follow, mapError_missing_iff, walk_error_iff]
  · exact modify_eq_write hnode
  · obtain ⟨doc', hwrite, hdoc'⟩ := exists_write hnode node
    rwa [hdoc'.eq_self] at hwrite
  · intro v
    obtain ⟨doc', hwrite, hdoc'⟩ := exists_write hnode v
    exact ⟨doc', hwrite, follow_ok_iff.mpr hdoc'.walk_new, write_write hwrite,
      fun other => follow_write_of_apart hwrite⟩

/-- A path with a sign at its index, one that fails below the next item, and one with no index. -/
theorem path_is_lens_of_signed_index :
    let doc : Json := .object [("list", .array [.null, .bool true]), ("name", .string "plain")]
    let written : Json := .object [("list", .array [.bool false, .bool true]),
      ("name", .string "plain")]
    doc.follow "list.+0" = .ok .null ∧ doc.write "list.+0" (.bool false) = .ok written ∧
      written.follow "list.+0" = .ok (.bool false) ∧
      Apart (doc.trail (route "list.+0")) (doc.trail (route "list.1.deeper")) ∧
      written.follow "list.1.deeper" = .error ⟨"deeper", "list.1.deeper"⟩ ∧
      Apart (doc.trail (route "list.+0")) (doc.trail (route "list.first")) ∧
      written.follow "list.first" = .error ⟨"first", "list.first"⟩ := by
  intro doc written
  have hread : doc.follow "list.+0" = .ok .null := by rfl
  have hdeeper : Apart (doc.trail (route "list.+0")) (doc.trail (route "list.1.deeper")) := by
    decide
  have hfirst : Apart (doc.trail (route "list.+0")) (doc.trail (route "list.first")) := by
    decide
  obtain ⟨_, _, hlens⟩ := path_is_lens doc "list.+0"
  obtain ⟨_, _, hwrite⟩ := hlens _ hread
  obtain ⟨doc', hdoc', hreadBack, _, hother⟩ := hwrite (.bool false)
  have hwritten : doc.write "list.+0" (.bool false) = .ok written := by rfl
  obtain rfl : written = doc' := Except.ok.inj (hwritten.symm.trans hdoc')
  refine ⟨hread, hwritten, hreadBack, hdeeper, ?_, hfirst, ?_⟩
  · exact (hother _ hdeeper).trans (by rfl)
  · exact (hother _ hfirst).trans (by rfl)

end Highlight.Json
