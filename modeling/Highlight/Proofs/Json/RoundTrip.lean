import Highlight.Proofs.Json.Nesting
import Highlight.Proofs.Json.Value
import Mathlib.Data.List.DropRight

/-!
# Documents are read back as they were written

The two directions meet at `Within`: whatever is read is within the depth of the reader
(`yields_value`), and what is within that depth is read back from its own text
(`value_writePretty`). So a document that was read or put together from such documents survives
being written if it nests no deeper than the reader goes (`read_pretty`), and is refused if it does
(`exists_read_pretty_error`).

What is left to ask is that its numbers survive. Integers do; of the others `Legible` has to be
known, each on its own.
-/

namespace Highlight.Json

/-! ## Texts -/

theorem fourDigits?_hexDigit {n : Nat} (h : n < 256) :
    fourDigits? '0' '0' (hexDigit (n / 16)) (hexDigit (n % 16)) = some n := by
  have hzero : hexValue? '0' = some 0 := by decide
  have hhigh := hexValue?_hexDigit (n / 16) (by omega)
  have hlow := hexValue?_hexDigit (n % 16) (by omega)
  simp only [fourDigits?, hzero, hhigh, hlow, Option.bind_eq_bind, Option.bind_some,
    Option.pure_def, Option.some.injEq]
  omega

/-- A character is read back, whatever is read after it. -/
theorem stringBody_writeChar (c : Char) {text s rest : List Char}
    (h : stringBody text = .ok (s, rest)) :
    stringBody (writeChar c ++ text) = .ok (c :: s, rest) := by
  unfold writeChar
  split
  -- the short escapes
  iterate 7
    · simp [stringBody, unescape?, h, bind, Except.bind, pure, Except.pure]
  · split
    · next hlow =>
      -- half a pair is never written
      have hunit := fourDigits?_hexDigit (n := c.toNat) (by omega)
      have htrailing : isTrailing c.toNat = false := by simp [isTrailing]; omega
      have hleading : isLeading c.toNat = false := by simp [isLeading]; omega
      simp [stringBody, hunit, htrailing, hleading, h, bind, Except.bind, pure, Except.pure]
    · next hlow =>
      rw [List.singleton_append, stringBody, if_neg hlow]
      · exact bind_ok h rfl
      -- neither a quote nor a backslash is written as it is
      all_goals grind

theorem stringBody_flatMap (s rest : List Char) :
    stringBody (s.flatMap writeChar ++ '"' :: rest) = .ok (s, rest) := by
  induction s with
  | nil => simp [stringBody]
  | cons c s ih =>
    rw [List.flatMap_cons, List.append_assoc]
    exact stringBody_writeChar c ih

/-! ## Blanks -/

theorem skipBlank_newLine (k : Nat) (text : List Char) :
    skipBlank (newLine k ++ text) = skipBlank text := by
  rw [skipBlank, List.dropWhile_append_of_pos, skipBlank]
  intro c hc
  rcases List.mem_cons.mp hc with rfl | hc
  · rfl
  · rw [List.eq_of_mem_replicate hc]
    rfl

variable {depth k : Nat} {doc : Json} {text text' rest : List Char}

/-- Blanks before a document do not matter. -/
theorem value_congr (h : skipBlank text = skipBlank text') :
    value depth text = value depth text' := by
  rw [value, value, h]

theorem skipBlank_skipBlank (text : List Char) : skipBlank (skipBlank text) = skipBlank text :=
  List.dropWhile_idempotent _ _

/-- A document does not start with a bracket that closes. -/
theorem exists_front (h : value depth text = .ok (doc, rest)) :
    ∃ c text', skipBlank text = c :: text' ∧ c ≠ ']' := by
  rw [value] at h
  cases hc : skipBlank text with
  | nil => simp [hc] at h
  | cons c text' =>
    refine ⟨c, text', rfl, ?_⟩
    rintro rfl
    simp [hc] at h

/-! ## Items and members -/

/-- The document is read back from its text, `k` steps in, wherever the text ends. -/
def ReadsBack (depth k : Nat) (doc : Json) : Prop :=
  ∀ rest, Ends rest → value depth (writePretty k doc ++ rest) = .ok (doc, rest)

theorem ends_writePrettyItems (k : Nat) (items : List Json) (rest : List Char) :
    Ends (writePrettyItems k items ++ rest) := by
  cases items <;> exact startsNot_cons.mpr (by decide)

theorem ends_writePrettyMembers (k : Nat) (members : List (String × Json)) (rest : List Char) :
    Ends (writePrettyMembers k members ++ rest) := by
  cases members <;> exact startsNot_cons.mpr (by decide)

theorem items_writePretty {item : Json} {items : List Json}
    (h : ∀ x ∈ item :: items, ReadsBack depth (k + 1) x) (rest : List Char) :
    Items (value depth)
      (skipBlank (writePretty (k + 1) item ++ (writePrettyItems k items ++ rest)))
      (item :: items) rest := by
  induction items generalizing item with
  | nil =>
    -- what follows the last item is a new line and the bracket
    have hitem := (List.forall_mem_cons.mp h).1 _ (ends_writePrettyItems k [] rest)
    refine .last ((value_congr (skipBlank_skipBlank _)).trans hitem) ?_
    rw [writePrettyItems, List.append_assoc, skipBlank_newLine]
    rfl
  | cons next items ih =>
    obtain ⟨hitem, hlater⟩ := List.forall_mem_cons.mp h
    have hfirst := hitem _ (ends_writePrettyItems k (next :: items) rest)
    have hnext := hlater next List.mem_cons_self _ (ends_writePrettyItems k items rest)
    have hitems := ih hlater
    -- the next item starts behind the comma and the new line
    obtain ⟨c, text, hc, hne⟩ := exists_front hnext
    rw [hc] at hitems
    refine .more ((value_congr (skipBlank_skipBlank _)).trans hfirst) rfl ?_ hne hitems
    rw [List.append_eq, List.append_assoc, List.append_assoc, skipBlank_newLine, hc]

/-- What `value` reads of a member whose name was taken off. -/
def entry (depth : Nat) (table : Table Json) (name : String) : Reader (Table Json) :=
  afterColon fun text => do
    let (v, rest) ← value depth text
    return (table.put name v, rest)

theorem local_entry (depth : Nat) (table : Table Json) (name : String) :
    Local Ends (entry depth table name) :=
  local_afterColon ((local_value depth).map (Table.put table name))

/-- One more container around what is read at both depths. -/
theorem value_of_inner {depth' : Nat} (hinner : ∀ inner, depth = inner + 1 →
      ∃ inner', depth' = inner' + 1 ∧ ∀ text x rest,
        value inner text = .ok (x, rest) → value inner' text = .ok (x, rest))
    (h : value depth text = .ok (doc, rest)) : value depth' text = .ok (doc, rest) := by
  rw [value] at h
  split at h
  · cases h
  · -- words and texts are read without regard to the depth
    next hc => rwa [value, hc]
  · next hc => rwa [value, hc]
  · next hc => rwa [value, hc]
  · next hc => rwa [value, hc]
  · next text' hc =>
    -- containers hand on one level less, and their entries are read as before
    cases depth with
    | zero => cases h
    | succ inner =>
      obtain ⟨inner', rfl, hvalue⟩ := hinner inner rfl
      obtain ⟨⟨items, rest'⟩, hitems, h⟩ := exists_of_bind_ok h
      have hitems' := items_congr (local_value inner) (local_value inner') hitems
        fun t x r _ hread => hvalue t x r hread
      rw [value, hc]
      exact bind_ok hitems' h
  · next text' hc =>
    cases depth with
    | zero => cases h
    | succ inner =>
      obtain ⟨inner', rfl, hvalue⟩ := hinner inner rfl
      obtain ⟨⟨members, rest'⟩, hmembers, h⟩ := exists_of_bind_ok h
      have hmembers' : Json.members (entry inner') [] text' = .ok (members, rest') := by
        rw [members_eq]
        change Json.members (entry inner) [] text' = _ at hmembers
        rw [members_eq] at hmembers
        refine series_congr (local_named (local_entry inner)) (local_named (local_entry inner'))
          hmembers fun table t table' r _ hread => ?_
        obtain ⟨⟨name, t'⟩, hname, hread⟩ := exists_of_bind_ok hread
        obtain ⟨t'', hcolon, hread⟩ := afterColon_eq_ok_iff.mp hread
        obtain ⟨⟨v, r'⟩, hv, hread⟩ := exists_of_bind_ok hread
        refine bind_ok hname (afterColon_eq_ok_iff.mpr ⟨t'', hcolon, ?_⟩)
        exact bind_ok (hvalue _ _ _ hv) hread
      rw [value, hc]
      exact bind_ok hmembers' h
  · -- so are numbers
    next hc => rwa [value, hc]
  · next c _ _ _ _ _ _ _ _ hc =>
    split at h
    · next hdigit => simpa [value, hc, hdigit] using h
    · cases h

/-- A reader that may go deeper reads the same. -/
theorem value_mono {depth' : Nat} (h : value depth text = .ok (doc, rest))
    (hle : depth ≤ depth') : value depth' text = .ok (doc, rest) := by
  induction depth generalizing depth' text doc rest with
  | zero =>
    refine value_of_inner (fun inner hinner => ?_) h
    cases hinner
  | succ depth ih =>
    refine value_of_inner (fun inner hinner => ?_) h
    obtain rfl := Nat.succ.inj hinner
    exact ⟨depth' - 1, by omega, fun text x rest hread => ih hread (by omega)⟩

/-- A member as it is written, from its opening quote on, is put at the end. -/
theorem named_entry {table : Table Json} {name : String} {v : Json}
    (hv : ReadsBack depth k v) (hname : name ∉ table.names) (hrest : Ends rest) :
    named (entry depth) table
        (name.toList.flatMap writeChar ++ '"' :: ':' :: ' ' :: (writePretty k v ++ rest))
      = .ok (table ++ [(name, v)], rest) := by
  refine bind_ok (stringBody_flatMap _ _) ?_
  dsimp only
  rw [String.ofList_toList]
  have hblank : value depth (' ' :: (writePretty k v ++ rest))
      = value depth (writePretty k v ++ rest) := value_congr rfl
  refine afterColon_eq_ok_iff.mpr ⟨_, rfl, bind_ok (hblank.trans (hv rest hrest)) ?_⟩
  dsimp only
  rw [Table.put_of_not_mem hname]
  rfl

/-- A name that does not come up twice is new to what stands before it. -/
theorem not_mem_of_nodup {table members : Table Json} {name : String} {v : Json}
    (h : (Table.names (table ++ (name, v) :: members)).Nodup) : name ∉ table.names := by
  rw [Table.names_append, Table.names_cons] at h
  intro hmem
  exact (List.nodup_append.mp h).2.2 _ hmem _ List.mem_cons_self rfl

theorem series_writePretty (table : Table Json) {name : String} {v : Json}
    {members : List (String × Json)}
    (h : ∀ e ∈ (name, v) :: members, ReadsBack depth (k + 1) e.2)
    (hnodup : (Table.names (table ++ (name, v) :: members)).Nodup) (rest : List Char) :
    Series (named (entry depth)) table
      (name.toList.flatMap writeChar ++ '"' :: ':' :: ' ' ::
        (writePretty (k + 1) v ++ (writePrettyMembers k members ++ rest)))
      (table ++ (name, v) :: members) rest := by
  induction members generalizing table name v with
  | nil =>
    have hv := (List.forall_mem_cons.mp h).1
    have hends := ends_writePrettyMembers k [] rest
    refine .last (named_entry hv (not_mem_of_nodup hnodup) hends) ?_
    rw [writePrettyMembers, List.append_assoc, skipBlank_newLine]
    rfl
  | cons next members ih =>
    obtain ⟨name', v'⟩ := next
    obtain ⟨hv, hlater⟩ := List.forall_mem_cons.mp h
    have hends := ends_writePrettyMembers k ((name', v') :: members) rest
    have hname := not_mem_of_nodup hnodup
    rw [List.append_cons] at hnodup
    rw [List.append_cons table]
    refine .more (named_entry hv hname hends) rfl ?_ (ih _ hlater hnodup)
    simp only [List.append_eq, List.append_assoc, skipBlank_newLine]
    rw [writeString, List.cons_append, skipBlank_of_not_blank (by decide)]
    simp only [List.append_assoc, List.cons_append, List.nil_append]

/-! ## Documents -/

mutual

/-- The numbers of a document that are no integers. -/
def reals : Json → List Float
  | number (.real x) => [x]
  | array items => realsOfItems items
  | object members => realsOfMembers members
  | _ => []

/-- The numbers of the items that are no integers. -/
def realsOfItems : List Json → List Float
  | [] => []
  | item :: rest => reals item ++ realsOfItems rest

/-- The numbers of the values that are no integers. -/
def realsOfMembers : List (String × Json) → List Float
  | [] => []
  | (_, v) :: rest => reals v ++ realsOfMembers rest

end

theorem mem_reals_array {items : List Json} {x : Float} :
    x ∈ (array items).reals ↔ ∃ item ∈ items, x ∈ item.reals := by
  rw [reals]
  induction items with
  | nil => simp [realsOfItems]
  | cons item rest ih => rw [realsOfItems, List.mem_append, ih, List.exists_mem_cons_iff]

theorem mem_reals_object {members : List (String × Json)} {x : Float} :
    x ∈ (object members).reals ↔ ∃ e ∈ members, x ∈ e.2.reals := by
  rw [reals]
  induction members with
  | nil => simp [realsOfMembers]
  | cons e rest ih => rw [realsOfMembers, List.mem_append, ih, List.exists_mem_cons_iff]

theorem readsBack_number {n : Number} (h : Legible n) : ReadsBack depth k (.number n) := by
  intro rest hrest
  obtain ⟨used, hused, htakes⟩ := local_value 0 _ _ _ h
  rw [List.append_nil] at hused
  rw [writePretty, hused]
  exact value_mono (htakes rest hrest) (Nat.zero_le _)

theorem readsBack_string (s : String) : ReadsBack depth k (.string s) := by
  intro rest _
  rw [writePretty, writeString, List.cons_append, List.append_assoc, value]
  refine bind_ok (stringBody_flatMap _ _) ?_
  dsimp only
  rw [String.ofList_toList]
  rfl

theorem readsBack_array {items : List Json} (h : ∀ item ∈ items, ReadsBack depth (k + 1) item) :
    ReadsBack (depth + 1) k (.array items) := by
  intro rest _
  cases items with
  | nil => rfl
  | cons item later =>
    have hitem := (List.forall_mem_cons.mp h).1 _ (ends_writePrettyItems k later rest)
    have hitems := items_writePretty h rest
    -- the bracket is looked for first, so that no item may start with it
    obtain ⟨c, text, hc, hne⟩ := exists_front hitem
    rw [hc] at hitems
    have hall : Json.items (value depth) (newLine (k + 1) ++ (writePretty (k + 1) item
        ++ (writePrettyItems k later ++ rest))) = .ok (item :: later, rest) := by
      rw [items_eq_ok_iff (local_value depth)]
      exact Or.inr ⟨c, text, by rw [skipBlank_newLine, hc], hne, hitems⟩
    rw [writePretty, List.cons_append, List.append_assoc, List.append_assoc, value]
    exact bind_ok hall rfl

theorem readsBack_object {members : List (String × Json)} (hnodup : (Table.names members).Nodup)
    (h : ∀ e ∈ members, ReadsBack depth (k + 1) e.2) :
    ReadsBack (depth + 1) k (.object members) := by
  intro rest _
  cases members with
  | nil => rfl
  | cons e later =>
    obtain ⟨name, v⟩ := e
    -- the members are read into an empty table, and keep their order
    have hseries := series_writePretty [] h hnodup rest
    have hmembers : Json.members (entry depth) [] (newLine (k + 1) ++ (writeString name
        ++ ':' :: ' ' :: (writePretty (k + 1) v ++ (writePrettyMembers k later ++ rest))))
          = .ok ((name, v) :: later, rest) := by
      rw [members_eq, series_eq_ok_iff (local_named (local_entry depth))]
      refine Or.inr ⟨_, ?_, hseries⟩
      rw [skipBlank_newLine, writeString, List.cons_append, skipBlank_of_not_blank (by decide)]
      simp only [List.append_assoc, List.cons_append, List.nil_append]
    rw [writePretty, List.cons_append, List.append_assoc, List.append_assoc, List.cons_append,
      List.cons_append, List.append_assoc, value]
    exact bind_ok hmembers rfl

/-- **A document within the depth is read back from its text.** -/
theorem value_writePretty (h : Within depth doc) (hreals : ∀ x ∈ doc.reals, Legible (.real x))
    (k : Nat) : ReadsBack depth k doc := by
  induction h generalizing k with
  | null =>
    intro rest _
    rw [writePretty, value]
    exact bind_ok (word_eq_ok_iff.mpr rfl) rfl
  | @bool _ b =>
    intro rest _
    cases b <;> rw [writePretty, value] <;> exact bind_ok (word_eq_ok_iff.mpr rfl) rfl
  | @number _ n hfits =>
    cases n with
    | integer n => exact readsBack_number (legible_integer hfits)
    | real x => exact readsBack_number (hreals x List.mem_cons_self)
  | string => exact readsBack_string _
  | array _ ih =>
    refine readsBack_array fun item hmem => ih item hmem (fun x hx => hreals x ?_) (k + 1)
    exact mem_reals_array.mpr ⟨item, hmem, hx⟩
  | object hnodup _ ih =>
    refine readsBack_object hnodup fun e hmem => ih e hmem (fun x hx => hreals x ?_) (k + 1)
    exact mem_reals_object.mpr ⟨e, hmem, hx⟩

/-- What is read of the text of a document, and a line break after it. -/
theorem value_pretty (h : Within depth doc) (hreals : ∀ x ∈ doc.reals, Legible (.real x)) :
    value depth (doc.pretty ++ "\n").toList = .ok (doc, ['\n']) := by
  have hends : Ends ['\n'] := startsNot_cons.mpr (by decide)
  rw [String.toList_append, pretty, String.toList_ofList]
  exact value_writePretty h hreals 0 _ hends

/-- **A document is read back if it nests no deeper than the reader goes.** -/
theorem read_pretty (h : Within depth doc) (hreals : ∀ x ∈ doc.reals, Legible (.real x))
    (hle : doc.nesting ≤ maxDepth) : read (doc.pretty ++ "\n") = .ok doc :=
  whole_eq_ok_iff.mpr ⟨_, value_pretty (h.of_nesting_le hle) hreals, rfl⟩

/-- **A document that nests deeper is refused.** -/
theorem exists_read_pretty_error (h : Within depth doc)
    (hreals : ∀ x ∈ doc.reals, Legible (.real x)) (hlt : maxDepth < doc.nesting) :
    ∃ e, read (doc.pretty ++ "\n") = .error e := by
  cases hread : read (doc.pretty ++ "\n") with
  | error e => exact ⟨e, rfl⟩
  | ok doc' =>
    -- a reader that goes deep enough reads the document itself
    obtain ⟨rest, hvalue, _⟩ := whole_eq_ok_iff.mp hread
    have hdeep := value_mono hvalue (Nat.le_of_lt (Nat.lt_of_lt_of_le hlt h.nesting_le))
    rw [value_pretty h hreals] at hdeep
    obtain ⟨rfl, _⟩ := Prod.mk.inj (Except.ok.inj hdeep)
    exact absurd (within_of_read hread).nesting_le (Nat.not_le_of_lt hlt)

end Highlight.Json
