import Highlight.Proofs.Table
import Highlight.Proofs.Text.Case
import Highlight.Style

/-!
# What of a style counts

A style has six fields. Each of them has its names, the one that counts first in front
(`Field.names`), and its type: a colour is a text, a flag is a truth value (`Field.read`). A field
is read from the first of its names whose value has that type, and from nothing else
(`get_fieldsOf`).

So a member counts only if its name is that of a field and its value of the field's type, and all
others might as well be missing: of the members that count, the first name that is there decides.
In an object no name comes up twice (`Json.within_of_read`), hence the order is of no account
either.
-/

namespace Highlight

/-! ## Colours as they are written -/

namespace ColourChoice

theorem parse_of_trim_eq {text text' : String} (h : Text.trim text = Text.trim text') :
    parse text = parse text' := by
  unfold parse
  rw [h]

/-- White space round a colour makes no difference. -/
theorem parse_append {before after : String} (hbefore : ∀ c ∈ before.toList, Text.isWhite c)
    (hafter : ∀ c ∈ after.toList, Text.isWhite c) (text : String) :
    parse (before ++ text ++ after) = parse text :=
  parse_of_trim_eq (Text.trim_append hbefore hafter text)

theorem parse_eq_auto_iff {text : String} :
    parse text = .auto ↔ Text.SameUpToCase (Text.trim text) "auto" := by
  rw [← Text.isWord_iff (by decide)]
  unfold parse
  dsimp only
  split
  · next h => exact ⟨fun _ => h, fun _ => rfl⟩
  · next h =>
    refine ⟨fun hparse => ?_, fun hword => absurd hword h⟩
    split at hparse <;> cases hparse

theorem parse_eq_random_iff {text : String} :
    parse text = .random ↔ Text.SameUpToCase (Text.trim text) "random" := by
  rw [← Text.isWord_iff (by decide)]
  unfold parse
  dsimp only
  split
  · next hauto =>
    -- a text is not both words
    constructor
    · intro hparse
      cases hparse
    · intro hrandom
      rw [Text.isWord, beq_iff_eq] at hauto hrandom
      exact absurd (hauto.symm.trans hrandom) (by decide)
  · split
    · next h => exact ⟨fun _ => h, fun _ => rfl⟩
    · next h =>
      refine ⟨fun hparse => ?_, fun hword => absurd hword h⟩
      cases hparse

/-- What is taken for a colour name or digits has no white space round it. -/
theorem trim_of_parse_eq_literal {text s : String} (h : parse text = .literal s) :
    s = Text.trim text := by
  unfold parse at h
  dsimp only at h
  split at h
  · cases h
  · split at h
    · cases h
    · exact (ColourChoice.literal.inj h).symm

theorem parse_literal {text s : String} (h : parse text = .literal s) : parse s = .literal s := by
  rw [← h]
  apply parse_of_trim_eq
  rw [trim_of_parse_eq_literal h, Text.trim_trim]

end ColourChoice

namespace Style

/-! ## Fields -/

/-- The fields of a style. -/
inductive Field where
  | foreground
  | background
  | bold
  | italic
  | wholeWord
  | caseInsensitive
  deriving DecidableEq

/-- What stands in a field. -/
inductive FieldValue where
  | colour (choice : Option ColourChoice)
  | flag (on : Bool)
  deriving DecidableEq

namespace Field

/-- All fields. -/
def all : List Field := [foreground, background, bold, italic, wholeWord, caseInsensitive]

/-- The names that a field goes by; the first one that is there counts. -/
def names : Field → List String
  | foreground => ["colour", "color", "foreground"]
  | background => ["background"]
  | bold => ["bold"]
  | italic => ["italic"]
  | wholeWord => ["whole-word", "whole_word"]
  | caseInsensitive => ["case-insensitive", "case_insensitive"]

/-- What a document of the field's type says; nothing if it has another type. -/
def read : Field → Json → Option FieldValue
  | foreground, .string s => some (.colour (some (.parse s)))
  | background, .string s => some (.colour (some (.parse s)))
  | bold, .bool b => some (.flag b)
  | italic, .bool b => some (.flag b)
  | wholeWord, .bool b => some (.flag b)
  | caseInsensitive, .bool b => some (.flag b)
  | _, _ => none

/-- What stands in a field that nothing is said of. -/
def default : Field → FieldValue
  | foreground => .colour none
  | background => .colour none
  | _ => .flag false

theorem mem_all (f : Field) : f ∈ all := by
  cases f <;> decide

/-- No two fields share a name. -/
theorem eq_of_mem_names {f g : Field} {name : String} (hf : name ∈ f.names) (hg : name ∈ g.names) :
    f = g := by
  have hdisjoint : ∀ f ∈ all, ∀ g ∈ all, ∀ name ∈ f.names, name ∈ g.names → f = g := by decide
  exact hdisjoint f f.mem_all g g.mem_all name hf hg

end Field

end Style

/-- What stands in a field of a style. -/
def StyleFields.get (fields : StyleFields) : Style.Field → Style.FieldValue
  | .foreground => .colour fields.foreground
  | .background => .colour fields.background
  | .bold => .flag fields.font.bold
  | .italic => .flag fields.font.italic
  | .wholeWord => .flag fields.wholeWord
  | .caseInsensitive => .flag fields.caseInsensitive

theorem StyleFields.ext_get {fields fields' : StyleFields} (h : ∀ f, fields.get f = fields'.get f) :
    fields = fields' := by
  obtain ⟨foreground, background, ⟨bold, italic⟩, wholeWord, caseInsensitive⟩ := fields
  obtain ⟨foreground', background', ⟨bold', italic'⟩, wholeWord', caseInsensitive'⟩ := fields'
  obtain rfl := Style.FieldValue.colour.inj (h .foreground)
  obtain rfl := Style.FieldValue.colour.inj (h .background)
  obtain rfl := Style.FieldValue.flag.inj (h .bold)
  obtain rfl := Style.FieldValue.flag.inj (h .italic)
  obtain rfl := Style.FieldValue.flag.inj (h .wholeWord)
  obtain rfl := Style.FieldValue.flag.inj (h .caseInsensitive)
  rfl

namespace Style

variable {members members' : Table Json} {f : Field}

/-- What the members say of a field: the first of its names counts that has a value of its type. -/
def said? (members : Table Json) (f : Field) : Option FieldValue :=
  f.names.findSome? fun name => (members.get? name).bind f.read

/-- Members may be looked up as texts and truth values first, and made field values afterwards. -/
theorem findSome?_read {β : Type} {read : Json → Option FieldValue} {type : Json → Option β}
    {value : β → FieldValue} (hread : ∀ v, read v = (type v).map value) (members : Table Json)
    (names : List String) : (names.findSome? fun name => (members.get? name).bind read)
      = (names.findSome? fun name => (members.get? name).bind type).map value := by
  rw [List.map_findSome?]
  congr 1
  funext name
  rw [Function.comp_apply, Option.map_bind]
  congr 1
  funext v
  exact hread v

theorem colour?_eq (members : Table Json) (names : List String) {read : Json → Option FieldValue}
    (hread : ∀ v, read v = (v.string?.map ColourChoice.parse).map fun choice =>
      .colour (some choice)) :
    FieldValue.colour (colour? members names)
      = (names.findSome? fun name => (members.get? name).bind read).getD (.colour none) := by
  have hcolour : colour? members names = names.findSome? fun name =>
      (members.get? name).bind fun v => v.string?.map ColourChoice.parse := by
    unfold colour?
    congr 1
    funext name
    exact Option.map_bind
  rw [findSome?_read hread, ← hcolour]
  cases colour? members names <;> rfl

theorem flag_eq (members : Table Json) (names : List String) {read : Json → Option FieldValue}
    (hread : ∀ v, read v = v.bool?.map .flag) :
    FieldValue.flag (flag members names)
      = (names.findSome? fun name => (members.get? name).bind read).getD (.flag false) := by
  rw [findSome?_read hread, flag]
  cases names.findSome? fun name => (members.get? name).bind Json.bool? <;> rfl

/-- **A field is what is said of it, else its default.** -/
theorem get_fieldsOf (members : Table Json) (f : Field) :
    (fieldsOf members).get f = (said? members f).getD f.default := by
  cases f with
  | foreground => exact colour?_eq members _ fun v => by cases v <;> rfl
  | background => exact colour?_eq members _ fun v => by cases v <;> rfl
  | bold => exact flag_eq members _ fun v => by cases v <;> rfl
  | italic => exact flag_eq members _ fun v => by cases v <;> rfl
  | wholeWord => exact flag_eq members _ fun v => by cases v <;> rfl
  | caseInsensitive => exact flag_eq members _ fun v => by cases v <;> rfl

/-- Only the names of a field matter for it. -/
theorem said?_congr (h : ∀ name ∈ f.names, (members.get? name).bind f.read
    = (members'.get? name).bind f.read) : said? members f = said? members' f := by
  unfold said?
  generalize f.names = names at h
  induction names with
  | nil => rfl
  | cons name names ih =>
    rw [List.findSome?_cons, List.findSome?_cons, h name List.mem_cons_self,
      ih fun name' hmem => h name' (List.mem_cons_of_mem name hmem)]

theorem ofJson_congr (h : ∀ f, said? members f = said? members' f) :
    ofJson (.object members) = ofJson (.object members') := by
  have hfields : fieldsOf members = fieldsOf members' := by
    apply StyleFields.ext_get
    intro f
    rw [get_fieldsOf, get_fieldsOf, h f]
  exact congrArg full hfields

/-! ## Members that count -/

/-- Whether a member is a field with a value of its type. -/
def counts (member : String × Json) : Bool :=
  Field.all.any fun f => decide (member.1 ∈ f.names) && (f.read member.2).isSome

theorem counts_iff {name : String} (hname : name ∈ f.names) (v : Json) :
    counts (name, v) ↔ (f.read v).isSome := by
  unfold counts
  rw [List.any_eq_true]
  constructor
  · -- no other field has the name, so it is this one that reads the value
    rintro ⟨g, _, hg⟩
    rw [Bool.and_eq_true, decide_eq_true_eq] at hg
    obtain rfl := Field.eq_of_mem_names hname hg.1
    exact hg.2
  · intro hread
    refine ⟨f, f.mem_all, ?_⟩
    rw [Bool.and_eq_true, decide_eq_true_eq]
    exact ⟨hname, hread⟩

/-- What does not count says nothing. -/
theorem said?_filter_counts (h : members.names.Nodup) (f : Field) :
    said? (members.filter counts) f = said? members f := by
  apply said?_congr
  intro name hname
  rw [Table.get?_filter h]
  cases members.get? name with
  | none => rfl
  | some v =>
    -- a member that is kept is found as before
    rw [Option.filter_some]
    split
    · rfl
    · next hv =>
      -- one that does not count is read as nothing
      rw [counts_iff hname, Option.not_isSome_iff_eq_none] at hv
      exact hv.symm

/-- `value` is what the first of the names that is there says, whatever comes after it. -/
inductive FirstPresent (f : Field) (members : Table Json) :
    (names : List String) → (value : Option FieldValue) → Prop where
  | none : FirstPresent f members [] none
  | here {name : String} {names : List String} {v : Json} {value : FieldValue} :
      members.get? name = some v → f.read v = some value →
      FirstPresent f members (name :: names) (some value)
  | later {name : String} {names : List String} {value : Option FieldValue} :
      name ∉ members.names → FirstPresent f members names value →
      FirstPresent f members (name :: names) value

/-- Of the members that count, the first name that is there decides. -/
theorem firstPresent_filter_counts (h : members.names.Nodup) (f : Field) :
    FirstPresent f (members.filter counts) f.names (said? members f) := by
  rw [← said?_filter_counts h, said?]
  generalize hkept : members.filter counts = kept
  -- along the names of the field, of which only the look-up goes on
  have hnames : ∀ names ⊆ f.names, FirstPresent f kept names
      (names.findSome? fun name => (Table.get? kept name).bind f.read) := by
    intro names hsub
    induction names with
    | nil => exact .none
    | cons name names ih =>
      obtain ⟨hname, hrest⟩ := List.cons_subset.mp hsub
      rw [List.findSome?_cons]
      cases hget : Table.get? kept name with
      | none => exact .later (Table.get?_eq_none_iff.mp hget) (ih hrest)
      | some v =>
        -- what is kept counts, so the first look-up that goes well is a value
        have hmem : (name, v) ∈ members.filter counts := hkept ▸ Table.mem_of_get? hget
        have hcounts : counts (name, v) := (List.mem_filter.mp hmem).2
        obtain ⟨value, hvalue⟩ := Option.isSome_iff_exists.mp ((counts_iff hname v).mp hcounts)
        rw [Option.bind_some, hvalue]
        exact .here hget hvalue
  exact hnames f.names (List.Subset.refl _)

/--
**A member of the wrong type is as good as missing.** A style stays the same when the members that
do not count are left out, that is those of unknown names and those whose value is not of the
field's type, and when the members are put in any other order. Each field is what the first of its
names says that is there among the members that count, or else its default, and no other name
matters for it. A colour is read without the white space round it, the two special words in any
case; what is taken for a colour name or digits is taken for the same when it is read again.
-/
theorem wrong_types_count_as_absent {members : Table Json} (h : members.names.Nodup) :
    ofJson (.object (members.filter counts)) = ofJson (.object members) ∧
    (∀ members', members.Perm members' → ofJson (.object members') = ofJson (.object members)) ∧
    (∀ f, ∃ value, FirstPresent f (members.filter counts) f.names value ∧
      (ofJson (.object members)).fields.get f = value.getD f.default) ∧
    (∀ f members', (∀ name ∈ f.names, Table.get? members' name = members.get? name) →
      (ofJson (.object members')).fields.get f = (ofJson (.object members)).fields.get f) ∧
    (∀ before text after : String, (∀ c ∈ before.toList, Text.isWhite c) →
      (∀ c ∈ after.toList, Text.isWhite c) →
      ColourChoice.parse (before ++ text ++ after) = .parse text) ∧
    (∀ text, ColourChoice.parse text = .auto ↔ Text.SameUpToCase (Text.trim text) "auto") ∧
    (∀ text, ColourChoice.parse text = .random ↔ Text.SameUpToCase (Text.trim text) "random") ∧
    ∀ text s, ColourChoice.parse text = .literal s → ColourChoice.parse s = .literal s := by
  refine ⟨?_, ?_, ?_, ?_, ?_, ?_, ?_, ?_⟩
  · exact ofJson_congr (said?_filter_counts h)
  · intro members' hperm
    refine ofJson_congr fun f => said?_congr fun name _ => ?_
    rw [Table.get?_perm hperm h]
  · -- by the first name that is there, where no wrong types are left
    intro f
    exact ⟨said? members f, firstPresent_filter_counts h f, get_fieldsOf members f⟩
  · -- a field looks up no names but its own
    intro f members' hsame
    have hsaid : said? members' f = said? members f :=
      said?_congr fun name hname => by rw [hsame name hname]
    have hfields : (fieldsOf members').get f = (fieldsOf members).get f := by
      rw [get_fieldsOf, get_fieldsOf, hsaid]
    exact hfields
  · intro before text after hbefore hafter
    exact ColourChoice.parse_append hbefore hafter text
  · intro text
    exact ColourChoice.parse_eq_auto_iff
  · intro text
    exact ColourChoice.parse_eq_random_iff
  · intro text s hparse
    exact ColourChoice.parse_literal hparse

/-- Names that would come first, but with values of other types, and a name of no field. -/
def mistyped : Table Json :=
  [("color", .string " Red "), ("colour", .number (.integer 42)), ("size", .bool true),
    ("whole-word", .null), ("whole_word", .bool true), ("bold", .string "yes")]

/-- The second name of a field counts, whether the first one is dropped or comes last. -/
theorem wrong_types_count_as_absent_of_mistyped :
    mistyped.names.Nodup ∧
    mistyped.filter counts = [("color", .string " Red "), ("whole_word", .bool true)] ∧
    ofJson (.object mistyped) = .full { foreground := some (.literal "Red"), wholeWord := true } ∧
    ofJson (.object mistyped.reverse)
      = .full { foreground := some (.literal "Red"), wholeWord := true } ∧
    (ofJson (.object [("colour", .number (.integer 42)), ("color", .string " Red "),
      ("bold", .bool true)])).fields.get .foreground = .colour (some (.literal "Red")) ∧
    ColourChoice.parse "\n aUtO\t" = .auto ∧
    ColourChoice.parse "Red" = .literal "Red" := by
  have hnodup : mistyped.names.Nodup := by decide
  obtain ⟨hkept, horder, _, hother, hwhite, hauto, _, hliteral⟩ :=
    wrong_types_count_as_absent hnodup
  have hfilter : mistyped.filter counts
      = [("color", .string " Red "), ("whole_word", .bool true)] := rfl
  have hstyle : ofJson (.object mistyped)
      = .full { foreground := some (.literal "Red"), wholeWord := true } := by
    rw [← hkept, hfilter]
    decide
  refine ⟨hnodup, hfilter, hstyle, ?_, ?_, ?_, ?_⟩
  · -- the other way round the number comes before the text, and is dropped all the same
    exact (horder _ (List.reverse_perm mistyped).symm).trans hstyle
  · have hcolours : ∀ name ∈ Field.foreground.names, Table.get? [("colour", .number (.integer 42)),
        ("color", .string " Red "), ("bold", .bool true)] name = mistyped.get? name := by
      rw [Field.names, List.forall_mem_cons, List.forall_mem_cons, List.forall_mem_singleton]
      exact ⟨rfl, rfl, rfl⟩
    rw [hother .foreground _ hcolours, hstyle]
    rfl
  · have hround := hwhite "\n " "aUtO" "\t" (List.all_eq_true.mp (by decide))
      (List.all_eq_true.mp (by decide))
    exact hround.trans ((hauto "aUtO").mpr (by decide))
  · exact hliteral " Red " "Red" (by decide)

end Style

end Highlight
