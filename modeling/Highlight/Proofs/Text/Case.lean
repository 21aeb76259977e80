import Highlight.Text.Blank
import Highlight.Text.Case
import Mathlib.Data.List.DropRight

/-!
# Texts up to white space and case

What is left of a text when it is trimmed does not depend on the white space round it, and is not
trimmed any further. Texts may be the same but for the case of their letters (`SameUpToCase`), which
are the ASCII ones: no other character has a case here.
-/

namespace Highlight.Text

/-! ## White space -/

theorem trimmed_eq (text : List Char) :
    trimmed text = (text.dropWhile isWhite).rdropWhile isWhite := rfl

/-- White space in front of a text and after it is trimmed off. -/
theorem trimmed_append {before after : List Char} (hbefore : ∀ c ∈ before, isWhite c)
    (hafter : ∀ c ∈ after, isWhite c) (text : List Char) :
    trimmed (before ++ text ++ after) = trimmed text := by
  have hfront : (before ++ text ++ after).dropWhile isWhite
      = (text ++ after).dropWhile isWhite := by
    rw [List.append_assoc]
    exact List.dropWhile_append_of_pos hbefore
  have hend (text : List Char) : (text ++ after).rdropWhile isWhite = text.rdropWhile isWhite := by
    rw [List.rdropWhile, List.reverse_append, List.dropWhile_append_of_pos, List.rdropWhile]
    intro c hc
    exact hafter c (List.mem_reverse.mp hc)
  rw [trimmed_eq, trimmed_eq, hfront, List.dropWhile_append]
  split
  · next hblank =>
    -- nothing but white space
    have htext : text.dropWhile isWhite = [] := List.isEmpty_iff.mp hblank
    have hrest : after.dropWhile isWhite = [] := List.dropWhile_eq_nil_iff.mpr hafter
    rw [htext, hrest]
  · exact hend _

/-- What is left lies between white space. -/
theorem exists_eq_append_trimmed (text : List Char) : ∃ before after,
    text = before ++ trimmed text ++ after ∧ (∀ c ∈ before, isWhite c) ∧
      ∀ c ∈ after, isWhite c := by
  refine ⟨text.takeWhile isWhite, (text.dropWhile isWhite).rtakeWhile isWhite, ?_, ?_, ?_⟩
  · rw [trimmed_eq, List.append_assoc, List.rdropWhile_append_rtakeWhile,
      List.takeWhile_append_dropWhile]
  · exact fun c hc => List.mem_takeWhile_imp hc
  · exact fun c hc => List.mem_rtakeWhile_imp hc

theorem trimmed_trimmed (text : List Char) : trimmed (trimmed text) = trimmed text := by
  obtain ⟨before, after, htext, hbefore, hafter⟩ := exists_eq_append_trimmed text
  conv_rhs => rw [htext]
  exact (trimmed_append hbefore hafter _).symm

/-- White space round a text makes no difference once it is trimmed. -/
theorem trim_append {before after : String} (hbefore : ∀ c ∈ before.toList, isWhite c)
    (hafter : ∀ c ∈ after.toList, isWhite c) (text : String) :
    trim (before ++ text ++ after) = trim text := by
  rw [trim, String.toList_append, String.toList_append, trimmed_append hbefore hafter, trim]

theorem trim_trim (text : String) : trim (trim text) = trim text := by
  rw [trim, trim, String.toList_ofList, trimmed_trimmed]

/-! ## Case -/

/-- Two texts differ in the case of ASCII letters at most. -/
def SameUpToCase (text text' : String) : Prop :=
  text.toList.map Char.toLower = text'.toList.map Char.toLower

/-- Only ASCII characters have a case. -/
theorem toLower_eq_self {c : Char} (h : 128 ≤ c.toNat) : c.toLower = c := by
  unfold Char.toLower
  rw [dif_neg]
  rintro ⟨_, hupper⟩
  have hle : c.toNat ≤ 90 := hupper
  omega

instance (text text' : String) : Decidable (SameUpToCase text text') :=
  inferInstanceAs (Decidable (_ = _))

/-- A lowercase word is recognised in any case. -/
theorem isWord_iff {text word : String} (h : word.toList.map Char.toLower = word.toList) :
    isWord text word ↔ SameUpToCase text word := by
  rw [isWord, beq_iff_eq, SameUpToCase, h]

end Highlight.Text
