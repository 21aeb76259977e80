import Highlight.Proofs.Table
import Highlight.Rule.Basic
import Mathlib

/-!
# What a batch of rules holds

There is one rule for each keyword, in order. The rule with number `n` has the letters of its
keyword and the digits of `n` as its identifier. Letters are no digits, so that the digits can be
read off, and different numbers make different identifiers whatever the keywords are.

All else of a rule comes from its keyword and its style. `Rule.Follows` says what that is.
-/

namespace Highlight.Rule

/-! ## One rule for each entry -/

theorem make_keyword (n : Nat) (keyword : String) (style : Style) (e : Entropy) :
    (make n keyword style e).1.keyword = keyword := rfl

theorem make_identifier (n : Nat) (keyword : String) (style : Style) (e : Entropy) :
    (make n keyword style e).1.identifier = identifierOf keyword n := rfl

theorem make_pattern (n : Nat) (keyword : String) (style : Style) (e : Entropy) :
    (make n keyword style e).1.pattern
      = Pattern.ofKeyword keyword style.fields.wholeWord style.fields.caseInsensitive := rfl

theorem make_font (n : Nat) (keyword : String) (style : Style) (e : Entropy) :
    (make n keyword style e).1.font = style.fields.font := rfl

theorem makeAll_cons (n : Nat) (keyword : String) (style : Style) (rest : Keywords)
    (e : Entropy) : (makeAll n ((keyword, style) :: rest) e).1
      = (make n keyword style e).1 :: (makeAll (n + 1) rest (make n keyword style e).2).1 := rfl

theorem keywords_makeAll (n : Nat) (keywords : Keywords) (e : Entropy) :
    (makeAll n keywords e).1.map (·.keyword) = keywords.names := by
  induction keywords generalizing n e with
  | nil => rfl
  | cons entry rest ih =>
    obtain ⟨keyword, style⟩ := entry
    rw [makeAll_cons, List.map_cons, ih, make_keyword, Table.names_cons]

/-- The rule at each place is made of the entry at that place. -/
theorem exists_of_getElem?_makeAll {n i : Nat} {keywords : Keywords} {e : Entropy} {rule : Rule}
    (h : (makeAll n keywords e).1[i]? = some rule) : ∃ style words,
      (rule.keyword, style) ∈ keywords ∧ rule = (make (n + i) rule.keyword style words).1 := by
  induction keywords generalizing n i e with
  | nil => cases h
  | cons entry rest ih =>
    obtain ⟨keyword, style⟩ := entry
    rw [makeAll_cons] at h
    cases i with
    | zero =>
      -- the first rule is made of the first entry
      rw [List.getElem?_cons_zero] at h
      obtain rfl := Option.some.inj h
      exact ⟨style, e, List.mem_cons_self, rfl⟩
    | succ i =>
      -- the later ones are made of the rest, with numbers that begin one higher
      rw [List.getElem?_cons_succ] at h
      obtain ⟨style', words, hmem, hrule⟩ := ih h
      refine ⟨style', words, List.mem_cons_of_mem _ hmem, ?_⟩
      rwa [Nat.add_right_comm, Nat.add_assoc] at hrule

/-! ## Identifiers -/

theorem toList_identifierOf (keyword : String) (n : Nat) :
    (identifierOf keyword n).toList
      = keyword.toList.filter Char.isAlpha ++ Nat.toDigits 10 n := by
  rw [identifierOf, String.toList_append, Pattern.letters, String.toList_ofList,
    String.toList_ofList]

theorem not_isAlpha_of_isDigit {c : Char} (h : c.isDigit = true) : ¬c.isAlpha = true := by
  have hnine : '9'.val.toNat = 57 := rfl
  have hupper : 'A'.val.toNat = 65 := rfl
  have hlower : 'a'.val.toNat = 97 := rfl
  simp only [Char.isDigit, Char.isAlpha, Char.isUpper, Char.isLower, Bool.and_eq_true,
    Bool.or_eq_true, decide_eq_true_eq, UInt32.le_iff_toNat_le, ge_iff_le] at h ⊢
  omega

/-- The number of a rule is what stands behind the letters of its identifier. -/
theorem dropWhile_identifierOf (keyword : String) (n : Nat) :
    (identifierOf keyword n).toList.dropWhile Char.isAlpha = Nat.toDigits 10 n := by
  have hletters : ∀ c ∈ keyword.toList.filter Char.isAlpha, c.isAlpha = true :=
    fun c hc => (List.mem_filter.mp hc).2
  rw [toList_identifierOf, List.dropWhile_append_of_pos hletters]
  cases hd : Nat.toDigits 10 n with
  | nil => exact absurd hd Nat.toDigits_ne_nil
  | cons c rest =>
    have hdigit : c.isDigit = true :=
      Nat.isDigit_of_mem_toDigits (by decide) (by decide) (hd ▸ List.mem_cons_self)
    rw [List.dropWhile_cons_of_neg (not_isAlpha_of_isDigit hdigit)]

theorem identifierOf_number_inj {keyword keyword' : String} {n n' : Nat}
    (h : identifierOf keyword n = identifierOf keyword' n') : n = n' := by
  have hdigits : Nat.toDigits 10 n = Nat.toDigits 10 n' := by
    rw [← dropWhile_identifierOf keyword n, h, dropWhile_identifierOf]
  rw [← Nat.ofDigitChars_ten_toDigits (n := n), hdigits, Nat.ofDigitChars_ten_toDigits]

/-- A text of letters only is no identifier. -/
theorem identifierOf_ne_letters {keyword text : String} {n : Nat}
    (h : text.toList.all Char.isAlpha = true) : identifierOf keyword n ≠ text := by
  intro heq
  have hnone := dropWhile_identifierOf keyword n
  rw [heq, List.dropWhile_eq_nil_iff.mpr (List.all_eq_true.mp h)] at hnone
  exact Nat.toDigits_ne_nil hnone.symm

theorem exists_number_of_mem_makeAll {n : Nat} {keywords : Keywords} {e : Entropy} {rule : Rule}
    (h : rule ∈ (makeAll n keywords e).1) :
    ∃ m, n ≤ m ∧ rule.identifier = identifierOf rule.keyword m := by
  obtain ⟨i, hi⟩ := List.mem_iff_getElem?.mp h
  obtain ⟨style, words, _, hrule⟩ := exists_of_getElem?_makeAll hi
  refine ⟨n + i, Nat.le_add_right n i, ?_⟩
  rw [hrule, make_identifier, make_keyword]

/-- No two rules that are made together share an identifier. -/
theorem nodup_identifiers_makeAll (n : Nat) (keywords : Keywords) (e : Entropy) :
    ((makeAll n keywords e).1.map (·.identifier)).Nodup := by
  induction keywords generalizing n e with
  | nil => exact List.nodup_nil
  | cons entry rest ih =>
    obtain ⟨keyword, style⟩ := entry
    rw [makeAll_cons, List.map_cons, List.nodup_cons, make_identifier]
    refine ⟨?_, ih _ _⟩
    -- a later rule has a higher number, and so another identifier
    intro hmem
    obtain ⟨rule, hrule, heq⟩ := List.mem_map.mp hmem
    obtain ⟨m, hm, hid⟩ := exists_number_of_mem_makeAll hrule
    have hnumber := identifierOf_number_inj (hid.symm.trans heq)
    omega

/-! ## What a style gives -/

/--
`c` is what a choice of colour gives a keyword for a role: nothing where there is no choice, the
keyword's own colour, some random colour, or the colour that a text names, if it names one.
-/
def Gives (keyword : String) (role : Role) : Option ColourChoice → (c : Option Rgb) → Prop
  | none, c => c = none
  | some .auto, c => c = some (role.colourOf keyword)
  | some .random, c => ∃ words, c = some (Rgb.draw Float words).1
  | some (.literal text), c => c = Rgb.ofText? text

/-- What a rule with number `n` looks like if it follows a style. -/
structure Follows (rule : Rule) (n : Nat) (style : Style) : Prop where
  /-- The letters of the keyword, then the digits of the number. -/
  identifier : rule.identifier.toList
    = rule.keyword.toList.filter Char.isAlpha ++ Nat.toDigits 10 n
  /-- The keyword, held to whole words if the style asks for it or there are only letters in it. -/
  pattern : rule.pattern =
    let whole := if style.fields.wholeWord ∨ ∀ c ∈ rule.keyword.toList, c.isAlpha
      then "\\b" ++ rule.keyword ++ "\\b" else rule.keyword
    if style.fields.caseInsensitive then "(?i:" ++ whole ++ ")" else whole
  font : rule.font = style.fields.font
  foreground : Gives rule.keyword .foreground style.fields.foreground rule.foreground
  background : Gives rule.keyword .background style.fields.background rule.background

theorem gives_pick? (choice : Option ColourChoice) (keyword : String) (role : Role)
    (e : Entropy) : Gives keyword role choice (ColourChoice.pick? choice keyword role e).1 := by
  rcases choice with _ | choice
  · rfl
  · cases choice with
    | auto => rfl
    | random => exact ⟨e, rfl⟩
    | literal text => rfl

theorem letters_eq_self_iff {keyword : String} :
    Pattern.letters keyword = keyword ↔ ∀ c ∈ keyword.toList, c.isAlpha = true := by
  rw [← String.toList_inj, Pattern.letters, String.toList_ofList, List.filter_eq_self]

/-- Every rule follows the style that it is made of. -/
theorem follows_make (n : Nat) (keyword : String) (style : Style) (e : Entropy) :
    (make n keyword style e).1.Follows n style where
  identifier := toList_identifierOf keyword n
  pattern := by
    rw [make_pattern, make_keyword, Pattern.ofKeyword]
    simp only [Bool.or_eq_true, beq_iff_eq, letters_eq_self_iff, Pattern.boundary]
  font := make_font n keyword style e
  foreground := gives_pick? style.fields.foreground keyword .foreground e
  background := gives_pick? style.fields.background keyword .background _

end Highlight.Rule
