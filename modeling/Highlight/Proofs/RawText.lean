import Highlight.RawText
import Highlight.Proofs.Text.Bytes

/-!
# Raw texts that are texts

The bytes of a text are read back as this text (`text_ofText`), so a text and its bytes tell the
same. Bytes that are no text are shown as a text with other bytes. A character of one byte stands in
the bytes where it stands in the text, and nowhere within another character
(`exists_of_ofText_eq`): cut at a slash, the bytes of a text are the bytes of two texts.
-/

namespace Highlight.RawText

@[simp] theorem bytes_append (t u : RawText) : (t ++ u).bytes = t.bytes ++ u.bytes := rfl

theorem bytes_ofText (s : String) : (ofText s).bytes = s.toList.flatMap String.utf8EncodeChar := rfl

theorem ofText_append (s s' : String) : ofText (s ++ s') = ofText s ++ ofText s' := by
  refine congrArg RawText.mk ?_
  rw [String.toList_append, List.flatMap_append]
  rfl

/-! ## Reading a text back -/

theorem toNat_byte {n : Nat} (h : n < 256) : (UInt8.ofNat n).toNat = n := by
  rw [UInt8.toNat_ofNat', Nat.mod_eq_of_lt h]

theorem first_of_one {b : Nat} (h : b < 0x80) : first b = .char (Char.ofNat b) := if_pos h

theorem first_of_two {n : Nat} (h : 2 ≤ n) (h' : n < 0x20) :
    first (n + 0xC0) = .more ⟨0, 0x80, 0xBF, n⟩ := by
  have hbits : (n + 0xC0) % 0x20 = n := by omega
  rw [first, if_neg (by omega), if_neg (by omega), if_pos (by omega), hbits]

theorem first_of_three {n : Nat} (h : n < 0x10) : first (n + 0xE0) =
    .more ⟨1, if n = 0 then 0xA0 else 0x80, if n = 0xD then 0x9F else 0xBF, n⟩ := by
  have hbits : (n + 0xE0) % 0x10 = n := by omega
  rw [first, if_neg (by omega), if_neg (by omega), if_neg (by omega), if_pos (by omega), hbits]
  simp only [Nat.add_eq_right, Nat.reduceEqDiff]

theorem first_of_four {n : Nat} (h : n < 5) : first (n + 0xF0) =
    .more ⟨2, if n = 0 then 0x90 else 0x80, if n = 4 then 0x8F else 0xBF, n⟩ := by
  have hbits : (n + 0xF0) % 0x08 = n := by omega
  rw [first, if_neg (by omega), if_neg (by omega), if_neg (by omega), if_neg (by omega),
    if_pos (by omega), hbits]
  simp only [Nat.add_eq_right, Nat.reduceEqDiff]

section
variable {low high code n : Nat} (h : n < 0x40) (hlow : low ≤ n + 0x80) (hhigh : n + 0x80 ≤ high)
include h hlow hhigh

/-- The last byte of a character. -/
theorem decode_last (rest : List UInt8) :
    decode (some ⟨0, low, high, code⟩) (UInt8.ofNat (n + 0x80) :: rest) =
      Char.ofNat (0x40 * code + n) :: decode none rest := by
  have hbits : (n + 0x80) % 0x40 = n := by omega
  rw [decode, toNat_byte (by omega), Begun.next, if_pos ⟨hlow, hhigh⟩, hbits]

/-- A byte after which more of the character is to come. -/
theorem decode_more (owed : Nat) (rest : List UInt8) :
    decode (some ⟨owed + 1, low, high, code⟩) (UInt8.ofNat (n + 0x80) :: rest) =
      decode (some ⟨owed, 0x80, 0xBF, 0x40 * code + n⟩) rest := by
  have hbits : (n + 0x80) % 0x40 = n := by omega
  rw [decode, toNat_byte (by omega), Begun.next, if_pos ⟨hlow, hhigh⟩, hbits]

end

/-- The character that was written is read. -/
theorem decode_utf8EncodeChar (c : Char) (rest : List UInt8) :
    decode none (String.utf8EncodeChar c ++ rest) = c :: decode none rest := by
  have hvalid : c.val.toNat < 0xD800 ∨ 0xDFFF < c.val.toNat ∧ c.val.toNat < 0x110000 := c.valid
  have hchar : Char.ofNat c.val.toNat = c := Char.ofNat_toNat c
  -- by the number of bytes, which says how the bits are dealt out
  unfold String.utf8EncodeChar
  generalize c.val.toNat = v at *
  dsimp only
  split_ifs with hone htwo hthree
  · have hv : v % 256 = v := by omega
    rw [List.singleton_append, decode, toNat_byte (by omega), first_of_one (by omega)]
    simp only [hchar]
  · have hbits : 0x40 * (v / 64 % 32) + v % 64 = v := by omega
    rw [List.cons_append, decode, toNat_byte (by omega), first_of_two (by omega) (by omega)]
    dsimp only
    rw [List.singleton_append, decode_last (by omega) (by omega) (by omega), hbits, hchar]
  · have hbits : 0x40 * (0x40 * (v / 4096 % 16) + v / 64 % 64) + v % 64 = v := by omega
    rw [List.cons_append, decode, toNat_byte (by omega), first_of_three (by omega)]
    dsimp only
    rw [List.cons_append, decode_more (by omega) (by split_ifs <;> omega) (by split_ifs <;> omega),
      List.singleton_append, decode_last (by omega) (by omega) (by omega), hbits, hchar]
  · have hbits : 0x40 * (0x40 * (0x40 * (v / 262144 % 8) + v / 4096 % 64) + v / 64 % 64) + v % 64 =
        v := by omega
    rw [List.cons_append, decode, toNat_byte (by omega), first_of_four (by omega)]
    dsimp only
    rw [List.cons_append, decode_more (by omega) (by split_ifs <;> omega) (by split_ifs <;> omega),
      List.cons_append, decode_more (by omega) (by omega) (by omega), List.singleton_append,
      decode_last (by omega) (by omega) (by omega), hbits, hchar]

/-- What is shown for the bytes of a text is the text. -/
@[simp] theorem text_ofText (s : String) : (ofText s).text = s := by
  have hchars (cs : List Char) : decode none (cs.flatMap String.utf8EncodeChar) = cs := by
    induction cs with
    | nil => rfl
    | cons c cs ih => rw [List.flatMap_cons, decode_utf8EncodeChar, ih]
  rw [text, bytes_ofText, hchars, String.ofList_toList]

theorem ofText_inj {s s' : String} : ofText s = ofText s' ↔ s = s' := by
  constructor
  · intro h
    rw [← text_ofText s, h, text_ofText]
  · rintro rfl
    rfl

theorem text?_eq_some_iff {t : RawText} {s : String} : t.text? = some s ↔ t = ofText s := by
  rw [text?]
  split
  · next h =>
    rw [Option.some_inj]
    constructor
    · rintro rfl
      exact h.symm
    · rintro rfl
      exact text_ofText s
  · next h =>
    refine iff_of_false (by simp) ?_
    rintro rfl
    exact h (by rw [text_ofText])

@[simp] theorem text?_ofText (s : String) : (ofText s).text? = some s := text?_eq_some_iff.mpr rfl

/-- The bytes are those of a text. -/
def IsText (t : RawText) : Prop := ∃ s, t = ofText s

/-- Bytes are read back from what is shown for them just if they are those of a text. -/
theorem ofText_text_iff {t : RawText} : ofText t.text = t ↔ t.IsText := by
  constructor
  · intro h
    exact ⟨_, h.symm⟩
  · rintro ⟨s, rfl⟩
    rw [text_ofText]

theorem IsText.append {t u : RawText} (ht : t.IsText) (hu : u.IsText) : (t ++ u).IsText := by
  obtain ⟨s, rfl⟩ := ht
  obtain ⟨s', rfl⟩ := hu
  exact ⟨s ++ s', (ofText_append s s').symm⟩

/-! ## Characters of one byte -/

theorem asciiByte_inj {c c' : Char} (h : c.toNat < 128) (h' : c'.toNat < 128)
    (heq : asciiByte c = asciiByte c') : c = c' := by
  have hval : c.toNat = c'.toNat := (ofNat_inj (by omega) (by omega)).mp heq
  rw [← Char.ofNat_toNat c, hval, Char.ofNat_toNat]

theorem not_mem_utf8EncodeChar {c c' : Char} (h : c.toNat < 128) (h' : 128 ≤ c'.toNat) :
    asciiByte c ∉ String.utf8EncodeChar c' := by
  intro hmem
  have hle := le_of_mem_utf8EncodeChar h' hmem
  rw [asciiByte, toNat_byte (by omega)] at hle
  omega

/-- A character of one byte cuts the bytes of a text into those of two texts. -/
theorem exists_of_flatMap_eq {c : Char} (h : c.toNat < 128) {cs : List Char} {a b : List UInt8}
    (hbytes : cs.flatMap String.utf8EncodeChar = a ++ asciiByte c :: b) :
    ∃ cs₁ cs₂, cs = cs₁ ++ c :: cs₂ ∧ a = cs₁.flatMap String.utf8EncodeChar ∧
      b = cs₂.flatMap String.utf8EncodeChar := by
  induction cs generalizing a with
  | nil => simp at hbytes
  | cons c' cs ih =>
    have hlater (a' : List UInt8) (ha : a = String.utf8EncodeChar c' ++ a')
        (hrest : cs.flatMap String.utf8EncodeChar = a' ++ asciiByte c :: b) :
        ∃ cs₁ cs₂, c' :: cs = cs₁ ++ c :: cs₂ ∧ a = cs₁.flatMap String.utf8EncodeChar ∧
          b = cs₂.flatMap String.utf8EncodeChar := by
      obtain ⟨cs₁, cs₂, rfl, rfl, rfl⟩ := ih hrest
      exact ⟨c' :: cs₁, cs₂, rfl, by rw [ha, List.flatMap_cons], rfl⟩
    rw [List.flatMap_cons, List.append_eq_append_iff] at hbytes
    rcases hbytes with ⟨a', ha, hrest⟩ | ⟨b', hchar, hb⟩
    · exact hlater a' ha hrest
    · cases b' with
      | nil => exact hlater [] (by rw [hchar, List.append_nil, List.append_nil]) hb.symm
      | cons x b' =>
        obtain ⟨rfl, rfl⟩ := List.cons.inj hb
        -- the byte is one of the first character, which has no other then
        have hmem : asciiByte c ∈ String.utf8EncodeChar c' := by
          rw [hchar]
          exact List.mem_append_right _ List.mem_cons_self
        have hascii : c'.toNat < 128 := by
          by_contra hlarge
          exact not_mem_utf8EncodeChar h (Nat.not_lt.mp hlarge) hmem
        rw [utf8EncodeChar_of_lt hascii, List.singleton_eq_append_iff] at hchar
        rcases hchar with ⟨rfl, hone⟩ | ⟨_, hone⟩
        · obtain ⟨hsame, rfl⟩ := List.cons.inj hone
          obtain rfl := asciiByte_inj h hascii hsame
          exact ⟨[], cs, rfl, rfl, rfl⟩
        · cases hone

/-- What stands before a character of one byte in the bytes of a text is a text. -/
theorem isText_of_append {c : Char} (h : c.toNat < 128) {a b : List UInt8}
    (htext : (⟨a ++ asciiByte c :: b⟩ : RawText).IsText) : (⟨a⟩ : RawText).IsText := by
  obtain ⟨s, hs⟩ := htext
  obtain ⟨cs₁, _, _, rfl, _⟩ := exists_of_flatMap_eq h (congrArg bytes hs).symm
  exact ⟨String.ofList cs₁, by rw [ofText, String.toList_ofList]⟩

/-- A character of one byte is in the bytes of a text just if it is in the text. -/
theorem asciiByte_mem_ofText_iff {c : Char} (h : c.toNat < 128) {s : String} :
    asciiByte c ∈ (ofText s).bytes ↔ c ∈ s.toList := by
  constructor
  · intro hmem
    obtain ⟨a, b, hsplit⟩ := List.append_of_mem hmem
    obtain ⟨cs₁, cs₂, hchars, -, -⟩ := exists_of_flatMap_eq h hsplit
    rw [hchars]
    exact List.mem_append_right _ List.mem_cons_self
  · intro hmem
    refine List.mem_flatMap.mpr ⟨c, hmem, ?_⟩
    rw [utf8EncodeChar_of_lt h]
    exact List.mem_singleton_self _

end Highlight.RawText
