import Highlight.Json.Printer
import Highlight.Proofs.Json.Local
import Highlight.Proofs.Json.Reader

/-!
# Integers are read back

An integer that is read fits 64 bits (`yields_unsigned`), and one that fits is read back from its
own text (`legible_integer`): the digits that are written have the value of the integer and no zero
in front. `Legible` says the same of a number of any kind.
-/

namespace Highlight

/-- An integer fits 64 bits, signed or not. -/
def Number.Fits : Number → Prop
  | integer n => -(UInt64.size / 2 : Nat) ≤ n ∧ n < UInt64.size
  | real _ => True

namespace Json

/-- A number is read back from its own text. -/
def Legible (n : Number) : Prop := value 0 n.write = .ok (.number n, [])

/-! ## Integers that were read -/

theorem fits_of_integer? {negative : Bool} {whole : List Nat} {n : Int}
    (h : integer? negative whole = some n) : (Number.integer n).Fits := by
  unfold integer? at h
  rw [Number.Fits]
  dsimp only at h
  split at h
  all_goals
    split at h
    · obtain rfl := Option.some.inj h
      omega
    · cases h

theorem yields_unsigned (negative : Bool) : Yields (unsigned negative) Number.Fits := by
  intro text n rest hread
  rw [unsigned_eq] at hread
  obtain ⟨⟨⟨whole, fraction, power⟩, text'⟩, _, hread⟩ := exists_of_bind_ok hread
  unfold ofParts at hread
  dsimp only at hread
  split at hread
  · next hinteger _ =>
    obtain ⟨rfl, _⟩ := Prod.mk.inj (Except.ok.inj hread)
    exact fits_of_integer? hinteger
  · -- what is no integer is a real number, which fits
    split at hread
    · cases hread
    · obtain ⟨rfl, _⟩ := Prod.mk.inj (Except.ok.inj hread)
      trivial

/-! ## Digits -/

/-- What digits stand for. -/
def digitsOf (text : List Char) : List Nat := text.map fun c => c.toNat - '0'.toNat

theorem digits_append {text rest : List Char} (h : ∀ c ∈ text, c.isDigit = true)
    (hrest : NoDigit rest) : digits (text ++ rest) = (digitsOf text, rest) := by
  induction text with
  | nil => exact digits_of_noDigit hrest
  | cons c text ih =>
    obtain ⟨hc, htext⟩ := List.forall_mem_cons.mp h
    rw [List.cons_append, digits, if_pos hc, ih htext]
    rfl

theorem digitsValue_digitsOf (text : List Char) :
    digitsValue (digitsOf text) = Nat.ofDigitChars 10 text 0 := by
  rw [digitsValue, digitsOf, List.foldl_map, Nat.ofDigitChars_eq_foldl]

/-- The digits of a number do not start with a zero, unless it is the only one. -/
theorem digitsOf_toDigits_ne (n : Nat) (d : Nat) (ds : List Nat) :
    digitsOf (Nat.toDigits 10 n) ≠ 0 :: d :: ds := by
  induction n using Nat.strongRecOn generalizing d ds with
  | ind n ih =>
    intro h
    rw [Nat.toDigits_eq_if (by decide)] at h
    split at h
    · exact absurd (congrArg List.length h) (by simp [digitsOf])
    · next hn =>
      -- either the zero is in front of the other digits too, or there is none but the last
      rw [digitsOf, List.map_append, ← digitsOf] at h
      cases hfront : digitsOf (Nat.toDigits 10 (n / 10)) with
      | nil => exact Nat.toDigits_ne_nil (List.map_eq_nil_iff.mp hfront)
      | cons e es =>
        rw [hfront] at h
        obtain ⟨rfl, _⟩ := List.cons.inj h
        cases es with
        | nil =>
          -- the digit in front is a zero, and the number behind it is smaller than ten
          have hvalue := digitsValue_digitsOf (Nat.toDigits 10 (n / 10))
          rw [hfront, Nat.ofDigitChars_ten_toDigits] at hvalue
          have hzero : digitsValue [0] = 0 := rfl
          omega
        | cons e' es => exact ih (n / 10) (by omega) _ _ hfront

/-- The digits of an integer are read as that integer. -/
theorem unsigned_toDigits {negative : Bool} {n : Nat} {m : Int}
    (h : ∀ whole, digitsValue whole = n → integer? negative whole = some m) :
    unsigned negative (Nat.toDigits 10 n) = .ok (.integer m, []) := by
  have hdigits : ∀ c ∈ Nat.toDigits 10 n, c.isDigit = true :=
    fun c hc => Nat.isDigit_of_mem_toDigits (by decide) (by decide) hc
  -- no digit follows the last one
  have hall := digits_append hdigits startsNot_nil
  rw [List.append_nil] at hall
  have hwhole : wholeDigits (Nat.toDigits 10 n) = .ok (digitsOf (Nat.toDigits 10 n), []) := by
    refine wholeDigits_eq_ok_iff.mpr ⟨hall, ?_, digitsOf_toDigits_ne n⟩
    intro hnil
    exact Nat.toDigits_ne_nil (List.map_eq_nil_iff.mp hnil)
  have hinteger := h (digitsOf (Nat.toDigits 10 n)) (by
    rw [digitsValue_digitsOf, Nat.ofDigitChars_ten_toDigits])
  have hparts : numberParts (Nat.toDigits 10 n)
      = .ok ((digitsOf (Nat.toDigits 10 n), none, none), []) := bind_ok hwhole rfl
  rw [unsigned_eq]
  refine bind_ok hparts ?_
  unfold ofParts
  dsimp only
  rw [hinteger]

/-- What starts with a digit is a number. -/
theorem value_of_digit {depth : Nat} {c : Char} {text rest : List Char} {n : Number}
    (hc : c.isDigit = true) (h : unsigned false (c :: text) = .ok (n, rest)) :
    value depth (c :: text) = .ok (.number n, rest) := by
  have hblank : isBlank c = false := by
    rw [Bool.eq_false_iff]
    intro hblank
    rcases isBlank_iff.mp hblank with rfl | rfl | rfl | rfl <;> exact absurd hc (by decide)
  rw [value, skipBlank_of_not_blank hblank]
  split
  case h_9 heq =>
    obtain ⟨rfl, rfl⟩ := List.cons.inj heq
    rw [if_pos hc]
    exact bind_ok h rfl
  -- no word, text or container starts with a digit, nor does a minus sign
  all_goals
    next heq => cases heq <;> exact absurd hc (by decide)

/-- **An integer that fits is read back.** -/
theorem legible_integer {n : Int} (h : (Number.integer n).Fits) : Legible (.integer n) := by
  obtain ⟨hlow, hhigh⟩ := h
  rw [Legible, Number.write]
  split
  · next hneg =>
    have hread : unsigned true (Nat.toDigits 10 n.natAbs) = .ok (.integer n, []) := by
      refine unsigned_toDigits fun whole hwhole => ?_
      rw [integer?, hwhole]
      simp only [if_true]
      -- the sign is read first, and the least integer has no positive counterpart
      rw [if_pos (by omega)]
      congr 1
      omega
    rw [value]
    exact bind_ok hread rfl
  · next hneg =>
    have hread : unsigned false (Nat.toDigits 10 n.natAbs) = .ok (.integer n, []) := by
      refine unsigned_toDigits fun whole hwhole => ?_
      rw [integer?, hwhole, if_neg (by decide), if_pos (by omega)]
      congr 1
      omega
    rw [List.nil_append]
    cases hd : Nat.toDigits 10 n.natAbs with
    | nil => exact absurd hd Nat.toDigits_ne_nil
    | cons c text =>
      rw [hd] at hread
      refine value_of_digit ?_ hread
      exact Nat.isDigit_of_mem_toDigits (by decide) (by decide) (hd ▸ List.mem_cons_self)

end Json

end Highlight
