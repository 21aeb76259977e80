import Highlight.Proofs.Colour.Text
import Highlight.Proofs.Text.Bytes
import Highlight.Proofs.Text.Case
import Mathlib.Tactic.SplitIfs

/-!
# Texts that are hexadecimal colours

A digit has the same value in either case, and is written in lowercase. So a colour is written with
the digits it was read from, and a text may be put in lowercase before it is read as a colour. That
is also what is done to look it up among the colour names, none of which consists of three or six
digits.

A text is read by its characters. The characters that matter are one byte each, and a character of
several bytes has none in common with them; so reading the bytes comes to the same
(`Rgb.ofHex?_eq_ofHexBytes?`).
-/

namespace Highlight

/-! ## Digits -/

/-- A hexadecimal digit, in either case. -/
def IsHexDigit (c : Char) : Prop :=
  ('0' ≤ c ∧ c ≤ '9') ∨ ('a' ≤ c ∧ c ≤ 'f') ∨ ('A' ≤ c ∧ c ≤ 'F')

instance (c : Char) : Decidable (IsHexDigit c) :=
  inferInstanceAs (Decidable (_ ∨ _))

/-- What holds of all 128 ASCII characters holds of every one. -/
theorem forall_ascii {P : Char → Prop} (h : ∀ n < 128, P (Char.ofNat n)) {c : Char}
    (hc : c.toNat < 128) : P c := by
  have hchar := h c.toNat hc
  rwa [Char.ofNat_toNat] at hchar

theorem hexValue?_isSome_iff {c : Char} : (hexValue? c).isSome ↔ IsHexDigit c := by
  unfold hexValue? IsHexDigit
  split_ifs with hdigit hlower hupper
  · exact iff_of_true rfl (Or.inl hdigit)
  · exact iff_of_true rfl (Or.inr (Or.inl hlower))
  · exact iff_of_true rfl (Or.inr (Or.inr hupper))
  · refine iff_of_false (by decide) ?_
    rintro (h | h | h)
    · exact hdigit h
    · exact hlower h
    · exact hupper h

theorem IsHexDigit.toNat_lt {c : Char} (h : IsHexDigit c) : c.toNat < 128 := by
  have hval (d : Char) (hle : c ≤ d) : c.toNat ≤ d.toNat := hle
  rcases h with h | h | h
  · exact Nat.lt_of_le_of_lt (hval _ h.2) (by decide)
  · exact Nat.lt_of_le_of_lt (hval _ h.2) (by decide)
  · exact Nat.lt_of_le_of_lt (hval _ h.2) (by decide)

/-- A digit is written in lowercase again. -/
theorem hexDigit_of_hexValue? {c : Char} {n : Nat} (h : hexValue? c = some n) :
    n < 16 ∧ hexDigit n = c.toLower := by
  have hascii : c.toNat < 128 := by
    apply IsHexDigit.toNat_lt
    rw [← hexValue?_isSome_iff, h]
    rfl
  have hall : (hexValue? c).all fun n => n < 16 && hexDigit n == c.toLower :=
    forall_ascii (P := fun c => (hexValue? c).all fun n => n < 16 && hexDigit n == c.toLower)
      (by decide) hascii
  rw [h, Option.all_some, Bool.and_eq_true, decide_eq_true_eq, beq_iff_eq] at hall
  exact hall

/-- What takes ASCII letters of either case for the same depends on no case. -/
theorem apply_toLower {β : Type} {f : Char → β}
    (h : ∀ n < 128, f (Char.ofNat n).toLower = f (Char.ofNat n)) (c : Char) :
    f c.toLower = f c := by
  by_cases hc : c.toNat < 128
  · exact forall_ascii (P := fun c => f c.toLower = f c) h hc
  · rw [Text.toLower_eq_self (Nat.not_lt.mp hc)]

theorem hexValue?_toLower (c : Char) : hexValue? c.toLower = hexValue? c :=
  apply_toLower (by decide) c

theorem hexValue?_lowerName (c : Char) : hexValue? (Text.lowerName c) = hexValue? c := by
  unfold Text.lowerName
  split
  · next h => rw [h]; decide
  · exact hexValue?_toLower c

namespace Rgb

theorem byte?_isSome_iff {high low : Char} :
    (byte? high low).isSome ↔ IsHexDigit high ∧ IsHexDigit low := by
  rw [← hexValue?_isSome_iff, ← hexValue?_isSome_iff, byte?]
  cases hexValue? high <;> cases hexValue? low <;> simp

/-- A byte is written with the digits it was read from. -/
theorem byteDigits_of_byte? {high low : Char} {b : UInt8} (h : byte? high low = some b) :
    byteDigits b = [high.toLower, low.toLower] := by
  obtain ⟨n, hn, h⟩ := Option.bind_eq_some_iff.mp h
  obtain ⟨m, hm, h⟩ := Option.bind_eq_some_iff.mp h
  obtain rfl := Option.some.inj h
  obtain ⟨hn, hhigh⟩ := hexDigit_of_hexValue? hn
  obtain ⟨hm, hlow⟩ := hexDigit_of_hexValue? hm
  have hbyte : (UInt8.ofNat (16 * n + m)).toNat = 16 * n + m := by
    rw [UInt8.toNat_ofNat', Nat.mod_eq_of_lt (by omega)]
  have hdiv : (16 * n + m) / 16 = n := by omega
  have hmod : (16 * n + m) % 16 = m := by omega
  rw [byteDigits, hbyte, hdiv, hmod, hhigh, hlow]

/-! ## Three digits and six -/

/-- The two digits of each byte: of three digits each one stands for two. -/
def doubled (digits : List Char) : List Char :=
  if digits.length = 3 then digits.flatMap fun d => [d, d] else digits

/-- A list of digits has three of them, or six, or is no colour. -/
theorem ofDigits?_cases (digits : List Char) :
    (∃ r g b, digits = [r, g, b]) ∨ (∃ r r' g g' b b', digits = [r, r', g, g', b, b']) ∨
      (digits.length ≠ 3 ∧ digits.length ≠ 6 ∧ ofDigits? digits = none) := by
  match digits with
  | [] => exact Or.inr (Or.inr ⟨by decide, by decide, rfl⟩)
  | [_] => exact Or.inr (Or.inr ⟨by simp, by simp, rfl⟩)
  | [_, _] => exact Or.inr (Or.inr ⟨by simp, by simp, rfl⟩)
  | [r, g, b] => exact Or.inl ⟨r, g, b, rfl⟩
  | [_, _, _, _] => exact Or.inr (Or.inr ⟨by simp, by simp, rfl⟩)
  | [_, _, _, _, _] => exact Or.inr (Or.inr ⟨by simp, by simp, rfl⟩)
  | [r, r', g, g', b, b'] => exact Or.inr (Or.inl ⟨r, r', g, g', b, b', rfl⟩)
  | _ :: _ :: _ :: _ :: _ :: _ :: _ :: _ => exact Or.inr (Or.inr ⟨by simp, by simp, rfl⟩)

theorem ofDigits?_three (r g b : Char) : ofDigits? [r, g, b] = ofDigits? [r, r, g, g, b, b] := rfl

/-- Six digits are a colour whose text has them in lowercase. -/
theorem ofDigits?_six_isSome_iff {r r' g g' b b' : Char} :
    (ofDigits? [r, r', g, g', b, b']).isSome ↔ ∀ d ∈ [r, r', g, g', b, b'], IsHexDigit d := by
  have hred : (byte? r r').isSome ↔ IsHexDigit r ∧ IsHexDigit r' := byte?_isSome_iff
  have hgreen : (byte? g g').isSome ↔ IsHexDigit g ∧ IsHexDigit g' := byte?_isSome_iff
  have hblue : (byte? b b').isSome ↔ IsHexDigit b ∧ IsHexDigit b' := byte?_isSome_iff
  simp only [List.forall_mem_cons, List.not_mem_nil, false_imp_iff, implies_true, and_true]
  rw [← and_assoc, ← hred, ← and_assoc (a := IsHexDigit g), ← hgreen, ← hblue, ofDigits?]
  cases byte? r r' <;> cases byte? g g' <;> cases byte? b b' <;> simp

theorem text_of_ofDigits?_six {r r' g g' b b' : Char} {c : Rgb}
    (h : ofDigits? [r, r', g, g', b, b'] = some c) :
    c.text.toList = '#' :: [r, r', g, g', b, b'].map Char.toLower := by
  obtain ⟨red, hred, h⟩ := Option.bind_eq_some_iff.mp h
  obtain ⟨green, hgreen, h⟩ := Option.bind_eq_some_iff.mp h
  obtain ⟨blue, hblue, h⟩ := Option.bind_eq_some_iff.mp h
  obtain rfl := Option.some.inj h
  rw [text, String.toList_ofList, byteDigits_of_byte? hred, byteDigits_of_byte? hgreen,
    byteDigits_of_byte? hblue]
  rfl

/-- **Digits are a colour exactly if they are three or six hexadecimal ones.** -/
theorem ofDigits?_isSome_iff {digits : List Char} : (ofDigits? digits).isSome ↔
    (digits.length = 3 ∨ digits.length = 6) ∧ ∀ d ∈ digits, IsHexDigit d := by
  rcases ofDigits?_cases digits with
    ⟨r, g, b, rfl⟩ | ⟨r, r', g, g', b, b', rfl⟩ | ⟨hthree, hsix, hnone⟩
  · rw [ofDigits?_three, ofDigits?_six_isSome_iff]
    simp
  · rw [ofDigits?_six_isSome_iff]
    simp
  · rw [hnone]
    simp [hthree, hsix]

/-- A colour is written with the digits it was read from. -/
theorem text_of_ofDigits? {digits : List Char} {c : Rgb} (h : ofDigits? digits = some c) :
    c.text.toList = '#' :: (doubled digits).map Char.toLower := by
  rcases ofDigits?_cases digits with
    ⟨r, g, b, rfl⟩ | ⟨r, r', g, g', b, b', rfl⟩ | ⟨_, _, hnone⟩
  · exact text_of_ofDigits?_six h
  · exact text_of_ofDigits?_six h
  · rw [hnone] at h
    cases h

/-- Only the values of the digits matter. -/
theorem ofDigits?_map {f : Char → Char} (hf : ∀ c, hexValue? (f c) = hexValue? c)
    (digits : List Char) : ofDigits? (digits.map f) = ofDigits? digits := by
  have hbyte (high low : Char) : byte? (f high) (f low) = byte? high low := by
    rw [byte?, byte?, hf, hf]
  rcases ofDigits?_cases digits with
    ⟨r, g, b, rfl⟩ | ⟨r, r', g, g', b, b', rfl⟩ | ⟨hthree, hsix, hnone⟩
  · simp only [List.map_cons, List.map_nil, ofDigits?, hbyte]
  · simp only [List.map_cons, List.map_nil, ofDigits?, hbyte]
  · rw [hnone, ← Option.not_isSome_iff_eq_none, ofDigits?_isSome_iff, List.length_map]
    rintro ⟨h | h, _⟩
    · exact hthree h
    · exact hsix h

/-! ## With and without a hash -/

/-- A text of the given digits, as many as a colour has, after one hash at most. -/
structure IsHex (text : String) (digits : List Char) : Prop where
  text : text.toList = digits ∨ text.toList = '#' :: digits
  count : digits.length = 3 ∨ digits.length = 6
  hex : ∀ d ∈ digits, IsHexDigit d

theorem ofHex?_of_toList_cons {text : String} {digits : List Char}
    (h : text.toList = '#' :: digits) : ofHex? text = ofDigits? digits := by
  rw [ofHex?, h]
  rfl

theorem ofHex?_of_head?_ne {text : String} (h : text.toList.head? ≠ some '#') :
    ofHex? text = ofDigits? text.toList := by
  unfold ofHex?
  split
  · next digits hdigits => exact absurd (congrArg List.head? hdigits) h
  · rfl

/-- A text has a hash in front or has none. -/
theorem ofHex?_cases (text : String) :
    (∃ digits, text.toList = '#' :: digits ∧ ofHex? text = ofDigits? digits) ∨
      (text.toList.head? ≠ some '#' ∧ ofHex? text = ofDigits? text.toList) := by
  by_cases h : text.toList.head? = some '#'
  · obtain ⟨digits, hdigits⟩ := List.head?_eq_some_iff.mp h
    exact Or.inl ⟨digits, hdigits, ofHex?_of_toList_cons hdigits⟩
  · exact Or.inr ⟨h, ofHex?_of_head?_ne h⟩

theorem IsHex.ofHex? {text : String} {digits : List Char} (h : IsHex text digits) :
    ofHex? text = ofDigits? digits := by
  rcases h.text with htext | htext
  · -- a hash is no digit
    have hhash : text.toList.head? ≠ some '#' := by
      intro hhead
      rw [htext] at hhead
      exact absurd (h.hex '#' (List.mem_of_mem_head? hhead)) (by decide)
    rw [ofHex?_of_head?_ne hhash, htext]
  · exact ofHex?_of_toList_cons htext

theorem ofHex?_isSome_iff {text : String} :
    (ofHex? text).isSome ↔ ∃ digits, IsHex text digits := by
  constructor
  · intro h
    rcases ofHex?_cases text with ⟨digits, htext, hhex⟩ | ⟨_, hhex⟩
    · rw [hhex, ofDigits?_isSome_iff] at h
      exact ⟨digits, Or.inr htext, h.1, h.2⟩
    · rw [hhex, ofDigits?_isSome_iff] at h
      exact ⟨text.toList, Or.inl rfl, h.1, h.2⟩
  · rintro ⟨digits, h⟩
    rw [h.ofHex?, ofDigits?_isSome_iff]
    exact ⟨h.count, h.hex⟩

/-- Only the values of the digits and the hash in front matter. -/
theorem ofHex?_map {f : Char → Char} (hf : ∀ c, hexValue? (f c) = hexValue? c)
    (hhash : ∀ c, f c = '#' ↔ c = '#') (text : String) :
    ofHex? (String.ofList (text.toList.map f)) = ofHex? text := by
  rcases ofHex?_cases text with ⟨digits, htext, hhex⟩ | ⟨hhead, hhex⟩
  · have hmap : (String.ofList (text.toList.map f)).toList = '#' :: digits.map f := by
      rw [String.toList_ofList, htext, List.map_cons, (hhash '#').mpr rfl]
    rw [ofHex?_of_toList_cons hmap, ofDigits?_map hf, hhex]
  · have hmap : (String.ofList (text.toList.map f)).toList.head? ≠ some '#' := by
      rw [String.toList_ofList, List.head?_map]
      intro h
      obtain ⟨c, hc, hfc⟩ := Option.map_eq_some_iff.mp h
      exact hhead ((hhash c).mp hfc ▸ hc)
    rw [ofHex?_of_head?_ne hmap, String.toList_ofList, ofDigits?_map hf, hhex]

/-! ## Colour names -/

theorem toLower_eq_hash_iff (c : Char) : c.toLower = '#' ↔ c = '#' :=
  iff_of_eq (apply_toLower (f := fun c => c = '#') (by decide) c)

theorem ofHex?_lower (text : String) :
    ofHex? (String.ofList (text.toList.map Char.toLower)) = ofHex? text :=
  ofHex?_map hexValue?_toLower toLower_eq_hash_iff text

theorem ofHex?_asName (text : String) : ofHex? (Text.asName text) = ofHex? text := by
  refine ofHex?_map hexValue?_lowerName (fun c => ?_) text
  unfold Text.lowerName
  split
  · next h => rw [h]; decide
  · exact toLower_eq_hash_iff c

/-- No colour name consists of three or six hexadecimal digits. -/
theorem ofHex?_palette : ∀ entry ∈ palette, ofHex? entry.1 = none := by decide +kernel

theorem mem_of_lookup {α β : Type} [BEq α] [LawfulBEq α] {entries : List (α × β)} {k : α} {v : β}
    (h : entries.lookup k = some v) : (k, v) ∈ entries := by
  obtain ⟨before, after, rfl, _⟩ := List.lookup_eq_some_iff.mp h
  exact List.mem_append_right _ List.mem_cons_self

theorem ofHex?_of_ofName? {text : String} {c : Rgb} (h : ofName? (Text.asName text) = some c) :
    ofHex? text = none := by
  rw [ofName?, Option.map_eq_some_iff] at h
  obtain ⟨packed, hpacked, _⟩ := h
  have hentry := ofHex?_palette (Text.asName text, packed) (mem_of_lookup hpacked)
  rwa [ofHex?_asName] at hentry

/-- **Digits are never taken for a colour name.** -/
theorem ofText?_of_ofHex? {text : String} {c : Rgb} (h : ofHex? text = some c) :
    ofText? text = some c := by
  unfold ofText?
  split
  · exact h
  · cases hname : ofName? (Text.asName text) with
    | none => exact h
    | some d =>
      rw [ofHex?_of_ofName? hname] at h
      cases h

theorem lowerName_toLower (c : Char) : Text.lowerName c.toLower = Text.lowerName c :=
  apply_toLower (by decide +kernel) c

/-- **A colour is read in any case.** -/
theorem ofText?_lower (text : String) :
    ofText? (String.ofList (text.toList.map Char.toLower)) = ofText? text := by
  have hhead : (String.ofList (text.toList.map Char.toLower)).toList.head? = some '#'
      ↔ text.toList.head? = some '#' := by
    rw [String.toList_ofList, List.head?_map, Option.map_eq_some_iff]
    simp only [toLower_eq_hash_iff, exists_eq_right]
  have hname : Text.asName (String.ofList (text.toList.map Char.toLower)) = Text.asName text := by
    rw [Text.asName, Text.asName, String.toList_ofList, List.map_map]
    congr 2
    funext c
    exact lowerName_toLower c
  rw [ofText?, ofText?, ofHex?_lower, hname]
  simp only [hhead]

/-! ## Reading bytes -/

/-- The value of the hexadecimal digit that a byte stands for. -/
def digitOfByte? (b : UInt8) : Option UInt8 :=
  if 0x30 ≤ b ∧ b ≤ 0x39 then some (b - 0x30)
  else if 0x61 ≤ b ∧ b ≤ 0x66 then some (b - 0x61 + 10)
  else if 0x41 ≤ b ∧ b ≤ 0x46 then some (b - 0x41 + 10)
  else none

/-- The byte of two digits, put together by shifting. -/
def byteOfBytes? (high low : UInt8) : Option UInt8 := do
  let h ← digitOfByte? high
  let l ← digitOfByte? low
  return h <<< 4 ||| l

/-- The colour of the bytes of exactly three or six digits. -/
def ofDigitBytes? : List UInt8 → Option Rgb
  | [r, g, b] => do return ⟨← byteOfBytes? r r, ← byteOfBytes? g g, ← byteOfBytes? b b⟩
  | [r, r', g, g', b, b'] => do
    return ⟨← byteOfBytes? r r', ← byteOfBytes? g g', ← byteOfBytes? b b'⟩
  | _ => none

/-- The colour that the bytes of a text stand for, with or without a leading `#`. -/
def ofHexBytes? : List UInt8 → Option Rgb
  | 0x23 :: digits => ofDigitBytes? digits
  | digits => ofDigitBytes? digits

theorem digitOfByte?_asciiByte {c : Char} (h : c.toNat < 128) :
    digitOfByte? (asciiByte c) = (hexValue? c).map UInt8.ofNat :=
  forall_ascii (P := fun c => digitOfByte? (asciiByte c) = (hexValue? c).map UInt8.ofNat)
    (by decide) h

theorem digitOfByte?_of_le {b : UInt8} (h : 128 ≤ b.toNat) : digitOfByte? b = none := by
  have hnot {d : UInt8} (hd : d.toNat < 128) : ¬ b ≤ d := fun hle =>
    absurd (UInt8.le_iff_toNat_le.mp hle) (by omega)
  rw [digitOfByte?, if_neg fun h => hnot (by decide) h.2, if_neg fun h => hnot (by decide) h.2,
    if_neg fun h => hnot (by decide) h.2]

theorem byteOfBytes?_asciiByte {high low : Char} (hhigh : high.toNat < 128)
    (hlow : low.toNat < 128) : byteOfBytes? (asciiByte high) (asciiByte low) = byte? high low := by
  rw [byteOfBytes?, byte?, digitOfByte?_asciiByte hhigh, digitOfByte?_asciiByte hlow]
  cases hn : hexValue? high with
  | none => rfl
  | some n =>
    cases hm : hexValue? low with
    | none => rfl
    | some m =>
      have hall : ∀ n < 16, ∀ m < 16, UInt8.ofNat n <<< 4 ||| UInt8.ofNat m
          = UInt8.ofNat (16 * n + m) := by decide
      exact congrArg some (hall n (hexDigit_of_hexValue? hn).1 m (hexDigit_of_hexValue? hm).1)

/-- A byte that is no digit spoils the colour. -/
theorem ofDigitBytes?_eq_none {bytes : List UInt8} {b : UInt8} (hb : b ∈ bytes)
    (hnone : digitOfByte? b = none) : ofDigitBytes? bytes = none := by
  have hhigh (low : UInt8) : byteOfBytes? b low = none := by rw [byteOfBytes?, hnone]; rfl
  have hlow (high : UInt8) : byteOfBytes? high b = none := by
    rw [byteOfBytes?, hnone]
    cases digitOfByte? high <;> rfl
  unfold ofDigitBytes?
  split
  · next r g b' =>
    -- three digits, each of them doubled
    simp only [List.mem_cons, List.not_mem_nil, or_false] at hb
    rcases hb with rfl | rfl | rfl <;> simp [hhigh]
  · next r r' g g' b' b'' =>
    -- six digits
    simp only [List.mem_cons, List.not_mem_nil, or_false] at hb
    rcases hb with rfl | rfl | rfl | rfl | rfl | rfl <;> simp [hhigh, hlow]
  · rfl

theorem ofDigitBytes?_ascii {digits : List Char} (h : ∀ c ∈ digits, c.toNat < 128) :
    ofDigitBytes? (digits.map asciiByte) = ofDigits? digits := by
  have hbyte {high low : Char} (hhigh : high ∈ digits) (hlow : low ∈ digits) :
      byteOfBytes? (asciiByte high) (asciiByte low) = byte? high low :=
    byteOfBytes?_asciiByte (h high hhigh) (h low hlow)
  match digits with
  | [] => rfl
  | [_] => rfl
  | [_, _] => rfl
  | [r, g, b] => simp [ofDigitBytes?, ofDigits?, hbyte]
  | [_, _, _, _] => rfl
  | [_, _, _, _, _] => rfl
  | [r, r', g, g', b, b'] => simp [ofDigitBytes?, ofDigits?, hbyte]
  | _ :: _ :: _ :: _ :: _ :: _ :: _ :: _ => rfl

theorem ofDigitBytes?_eq (digits : List Char) :
    ofDigitBytes? (digits.flatMap String.utf8EncodeChar) = ofDigits? digits := by
  by_cases hascii : ∀ c ∈ digits, c.toNat < 128
  · have hbytes : digits.flatMap String.utf8EncodeChar = digits.flatMap fun c => [asciiByte c] :=
      List.flatMap_congr fun c hc => utf8EncodeChar_of_lt (hascii c hc)
    rw [hbytes, ← List.map_eq_flatMap, ofDigitBytes?_ascii hascii]
  · -- a character with several bytes is no digit, and neither is any of its bytes
    obtain ⟨c, hc, hlarge⟩ : ∃ c ∈ digits, 128 ≤ c.toNat := by simpa using hascii
    have hchars : ofDigits? digits = none := by
      rw [← Option.not_isSome_iff_eq_none, ofDigits?_isSome_iff]
      rintro ⟨_, hhex⟩
      exact absurd (hhex c hc).toNat_lt (Nat.not_lt.mpr hlarge)
    obtain ⟨b, hb⟩ := List.exists_mem_of_ne_nil _ (String.utf8EncodeChar_ne_nil (c := c))
    rw [hchars]
    exact ofDigitBytes?_eq_none (List.mem_flatMap.mpr ⟨c, hc, hb⟩)
      (digitOfByte?_of_le (le_of_mem_utf8EncodeChar hlarge hb))

/-- Only the character `#` has a first byte like it. -/
theorem eq_hash_of_utf8EncodeChar {c : Char} {rest : List UInt8}
    (h : String.utf8EncodeChar c = 0x23 :: rest) : c = '#' := by
  by_cases hc : c.toNat < 128
  · rw [utf8EncodeChar_of_lt hc] at h
    have hbyte : asciiByte c = 0x23 := (List.cons.inj h).1
    exact forall_ascii (P := fun c => asciiByte c = 0x23 → c = '#') (by decide) hc hbyte
  · have hmem : (0x23 : UInt8) ∈ String.utf8EncodeChar c := by
      rw [h]
      exact List.mem_cons_self
    exact absurd (le_of_mem_utf8EncodeChar (Nat.not_lt.mp hc) hmem) (by decide)

/-- **A colour may be read byte by byte.** -/
theorem ofHex?_eq_ofHexBytes? (text : String) : ofHex? text = ofHexBytes? (bytesOf text) := by
  rw [bytesOf_eq]
  rcases ofHex?_cases text with ⟨digits, htext, hhex⟩ | ⟨hhead, hhex⟩
  · -- the hash is a byte of its own
    have hhash : String.utf8EncodeChar '#' = [0x23] := rfl
    rw [hhex, htext, List.flatMap_cons, hhash, List.singleton_append, ofHexBytes?,
      ofDigitBytes?_eq]
  · rw [hhex, ← ofDigitBytes?_eq]
    unfold ofHexBytes?
    split
    · next rest hbytes =>
      -- a byte that is a hash starts no other character
      cases htext : text.toList with
      | nil =>
        rw [htext] at hbytes
        cases hbytes
      | cons c cs =>
        rw [htext, List.flatMap_cons] at hbytes
        obtain ⟨b, bs, hchar⟩ := List.exists_cons_of_ne_nil (String.utf8EncodeChar_ne_nil (c := c))
        rw [hchar, List.cons_append] at hbytes
        obtain ⟨rfl, _⟩ := List.cons.inj hbytes
        rw [htext, eq_hash_of_utf8EncodeChar hchar] at hhead
        exact absurd rfl hhead
    · rfl

/-! ## Hexadecimal colours -/

/--
**Which texts are hexadecimal colours.** They are those of three or six digits of either case, with
or without one hash in front, whether a text is read by characters or by bytes. The text of such a
colour has the same digits in lowercase, each of three doubled, and is read as the same colour. As
the colour of a keyword such a text is what its digits say, since no colour name can be taken for
digits; and no text at all makes a random draw or depends on the case of its letters.
-/
theorem hexadecimal_colours :
    (∀ text, ofHex? text = ofHexBytes? (bytesOf text)) ∧
    (∀ text, (∃ c, ofHex? text = some c) ↔ ∃ digits, IsHex text digits) ∧
    (∀ text digits c, IsHex text digits → ofHex? text = some c →
      c.text.toList = '#' :: (doubled digits).map Char.toLower) ∧
    (∀ c : Rgb, ofHex? c.text = some c) ∧
    (∀ text digits keyword role e, IsHex text digits →
      (ColourChoice.literal text).pick keyword role e = (ofHex? text, e)) ∧
    (∀ text keyword role e, ((ColourChoice.literal text).pick keyword role e).2 = e) ∧
    ∀ text text' keyword role e, Text.SameUpToCase text text' →
      (ColourChoice.literal text).pick keyword role e
        = (ColourChoice.literal text').pick keyword role e := by
  refine ⟨ofHex?_eq_ofHexBytes?, ?_, ?_, ofHex?_text, ?_, ?_, ?_⟩
  · intro text
    rw [← ofHex?_isSome_iff, Option.isSome_iff_exists]
  · intro text digits c hhex hc
    rw [hhex.ofHex?] at hc
    exact text_of_ofDigits? hc
  · intro text digits keyword role e hhex
    obtain ⟨c, hc⟩ := Option.isSome_iff_exists.mp (ofHex?_isSome_iff.mpr ⟨digits, hhex⟩)
    rw [hc, ColourChoice.pick, ofText?_of_ofHex? hc]
  · intro text keyword role e
    rfl
  · intro text text' keyword role e hsame
    rw [ColourChoice.pick, ColourChoice.pick, ← ofText?_lower text, hsame, ofText?_lower text']

/-- Three digits after a hash, six digits that spell a word, and a name in two spellings. -/
theorem hexadecimal_colours_of_facade :
    let e : Entropy := ⟨fun k => UInt32.ofNat k, 0⟩
    IsHex "#aBc" ['a', 'B', 'c'] ∧ IsHex "Facade" ['F', 'a', 'c', 'a', 'd', 'e'] ∧
    Text.SameUpToCase "DarkRed" "dARKrED" ∧
    (⟨0xaa, 0xbb, 0xcc⟩ : Rgb).text.toList = "#aabbcc".toList ∧
    (ColourChoice.literal "Facade").pick "word" .background e = (some ⟨0xfa, 0xca, 0xde⟩, e) ∧
    (ColourChoice.literal "DarkRed").pick "word" .foreground e
      = (ColourChoice.literal "dARKrED").pick "word" .foreground e := by
  intro e
  have hthree : IsHex "#aBc" ['a', 'B', 'c'] :=
    ⟨by decide, by decide, List.forall_iff_forall_mem.mp (by decide)⟩
  have hsix : IsHex "Facade" ['F', 'a', 'c', 'a', 'd', 'e'] :=
    ⟨by decide, by decide, List.forall_iff_forall_mem.mp (by decide)⟩
  have hsame : Text.SameUpToCase "DarkRed" "dARKrED" := by decide
  obtain ⟨_, _, htext, _, hpick, _, hcase⟩ := hexadecimal_colours
  refine ⟨hthree, hsix, hsame, ?_, ?_, hcase _ _ _ _ _ hsame⟩
  · exact htext "#aBc" _ _ hthree (by decide)
  · rw [hpick "Facade" _ _ _ _ hsix]
    exact congrArg (·, e) (by decide)

end Rgb

end Highlight
