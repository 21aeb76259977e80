import Highlight.Proofs.Colour.Exact
import Highlight.Rule.Colour

/-!
# Colours keep to their tone

Quantising a colour works with four bounds, which do not depend on its channels: the least and the
greatest largest byte, and for each largest byte the least and the greatest smallest one. Whatever
the channels are, in range or out of it, the largest byte of the result lies between the first two
and the smallest one between the other two.

What is left is to know the bounds. In exact arithmetic they are the whole numbers next to `0.67`
times 255 and to `0.8` times the largest byte. On binary64 numbers they are the same, since the
rounding of `1.0 - 0.2` and of the products never carries a bound past a whole number; so the bands
hold for the colours that are really drawn as well.
-/

namespace Highlight

/-- One byte of a colour. -/
def Rgb.get (c : Rgb) : Primary → UInt8
  | .red => c.red
  | .green => c.green
  | .blue => c.blue

/-- Bright and saturated, in bytes. -/
def Rgb.IsVivid (c : Rgb) : Prop := 171 ≤ c.largest ∧ 5 * c.smallest ≤ 4 * c.largest

/-- Dark and greyish, in bytes. -/
def Rgb.IsMuted (c : Rgb) : Prop := c.largest ≤ 170 ∧ 4 * c.largest ≤ 5 * c.smallest

/-- One colour is brighter than another and no less saturated. -/
def Rgb.Outshines (c d : Rgb) : Prop :=
  (Hsv.ofRgb d : Hsv Rat).value < (Hsv.ofRgb c : Hsv Rat).value ∧
    (Hsv.ofRgb d : Hsv Rat).saturation ≤ (Hsv.ofRgb c : Hsv Rat).saturation

namespace Tone

variable {α : Type} [Scalar α]

/-- The least largest byte of a tone. -/
def topFloor (t : Tone α) : UInt8 := nearestByte (Scalar.ceil (t.value.lower * 255.0))

/-- The greatest largest byte of a tone. -/
def topCeil (t : Tone α) : UInt8 := nearestByte (Scalar.floor (t.value.upper * 255.0))

/-- The least smallest byte of a tone, where `most` is the largest one. -/
def bottomFloor (t : Tone α) (most : UInt8) : UInt8 :=
  nearestByte (Scalar.ceil ((1.0 - t.saturation.upper) * Scalar.ofByte most))

/-- The greatest smallest byte of a tone, where `most` is the largest one. -/
def bottomCeil (t : Tone α) (most : UInt8) : UInt8 :=
  nearestByte (Scalar.floor ((1.0 - t.saturation.lower) * Scalar.ofByte most))

end Tone

/-! ## Quantising -/

theorem le_clampByte {low high : UInt8} (h : low ≤ high) (x : UInt8) :
    low ≤ clampByte low high x := by
  unfold clampByte
  split
  · exact UInt8.le_refl low
  · split
    · exact h
    · exact UInt8.not_lt.mp ‹_›

theorem clampByte_le {low high : UInt8} (h : low ≤ high) (x : UInt8) :
    clampByte low high x ≤ high := by
  unfold clampByte
  split
  · exact h
  · split
    · exact UInt8.le_refl high
    · exact UInt8.not_lt.mp ‹_›

theorem Channels.darkest_ne {α : Type} [Scalar α] (c : Channels α) (top : Primary) :
    c.darkest top ≠ top := by
  cases top with
  | red => simp only [darkest]; split <;> decide
  | green => simp only [darkest]; split <;> decide
  | blue => simp only [darkest]; split <;> decide

namespace Rgb

theorem get_le_largest (c : Rgb) (p : Primary) : (c.get p).toNat ≤ c.largest := by
  cases p <;> simp only [get, largest] <;> omega

theorem smallest_le_get (c : Rgb) (p : Primary) : c.smallest ≤ (c.get p).toNat := by
  cases p <;> simp only [get, smallest] <;> omega

theorem exists_largest (c : Rgb) : ∃ p, c.largest = (c.get p).toNat := by
  unfold largest
  rcases Nat.le_total c.red.toNat c.green.toNat with h | h
  · rcases Nat.le_total c.green.toNat c.blue.toNat with h' | h'
    · exact ⟨.blue, by simp only [get]; omega⟩
    · exact ⟨.green, by simp only [get]; omega⟩
  · rcases Nat.le_total c.red.toNat c.blue.toNat with h' | h'
    · exact ⟨.blue, by simp only [get]; omega⟩
    · exact ⟨.red, by simp only [get]; omega⟩

theorem exists_smallest (c : Rgb) : ∃ p, c.smallest = (c.get p).toNat := by
  unfold smallest
  rcases Nat.le_total c.red.toNat c.green.toNat with h | h
  · rcases Nat.le_total c.red.toNat c.blue.toNat with h' | h'
    · exact ⟨.red, by simp only [get]; omega⟩
    · exact ⟨.blue, by simp only [get]; omega⟩
  · rcases Nat.le_total c.green.toNat c.blue.toNat with h' | h'
    · exact ⟨.green, by simp only [get]; omega⟩
    · exact ⟨.blue, by simp only [get]; omega⟩

theorem largest_eq_get {c : Rgb} {p : Primary} (h : ∀ q, c.get q ≤ c.get p) :
    c.largest = (c.get p).toNat := by
  apply Nat.le_antisymm
  · obtain ⟨q, hq⟩ := c.exists_largest
    rw [hq]
    exact UInt8.le_iff_toNat_le.mp (h q)
  · exact c.get_le_largest p

theorem smallest_eq_get {c : Rgb} {p : Primary} (h : ∀ q, c.get p ≤ c.get q) :
    c.smallest = (c.get p).toNat := by
  apply Nat.le_antisymm
  · exact c.smallest_le_get p
  · obtain ⟨q, hq⟩ := c.exists_smallest
    rw [hq]
    exact UInt8.le_iff_toNat_le.mp (h q)

end Rgb

namespace Tone

variable {α : Type} [Scalar α] {t : Tone α} {c : Channels α} {p : Primary}

/-- The largest byte of a quantised colour, which is the one of the brightest channel. -/
def mostOf (t : Tone α) (c : Channels α) : UInt8 :=
  clampByte t.topFloor (if t.topCeil < t.topFloor then t.topFloor else t.topCeil)
    (nearestByte (c.get c.brightest))

/-- The bytes of a quantised colour, one channel at a time. -/
theorem get_quantise (t : Tone α) (c : Channels α) (p : Primary) :
    (t.quantise c).get p =
      let most := t.mostOf c
      let x := clampByte (t.bottomFloor most) most (nearestByte (c.get p))
      let ceil := if t.bottomCeil most < t.bottomFloor most then t.bottomFloor most
        else t.bottomCeil most
      if p = c.brightest then most
      else if p = c.darkest c.brightest ∧ ceil < x then ceil else x := by
  cases p <;> rfl

/-- The byte of a channel after the clamp that is the same for all but the brightest. -/
def clamped (t : Tone α) (c : Channels α) (p : Primary) : UInt8 :=
  clampByte (t.bottomFloor (t.mostOf c)) (t.mostOf c) (nearestByte (c.get p))

theorem get_quantise_brightest (t : Tone α) (c : Channels α) :
    (t.quantise c).get c.brightest = t.mostOf c := by
  rw [get_quantise]
  exact if_pos rfl

theorem lowered_le {P : Prop} [Decidable P] (ceil x : UInt8) :
    (if P ∧ ceil < x then ceil else x) ≤ x := by
  split
  · next h => exact UInt8.le_of_lt h.2
  · exact UInt8.le_refl x

theorem get_quantise_le_clamped (hp : p ≠ c.brightest) :
    (t.quantise c).get p ≤ t.clamped c p := by
  rw [get_quantise]
  dsimp only
  rw [if_neg hp]
  exact lowered_le _ _

/-- The brightest channel stays the largest. -/
theorem get_quantise_le_mostOf (hfloor : t.bottomFloor (t.mostOf c) ≤ t.mostOf c) (p : Primary) :
    (t.quantise c).get p ≤ t.mostOf c := by
  by_cases hp : p = c.brightest
  · rw [hp, get_quantise_brightest]
    exact UInt8.le_refl _
  · exact UInt8.le_trans (get_quantise_le_clamped hp) (clampByte_le hfloor _)

/--
The largest byte of a quantised colour lies between the bounds for it, and the smallest one between
those that go with the largest, where the bounds are in order.
-/
theorem quantise_within (htop : t.topFloor ≤ t.topCeil)
    (hbottom : ∀ m, t.topFloor ≤ m → m ≤ t.topCeil → t.bottomFloor m ≤ t.bottomCeil m ∧
      t.bottomCeil m ≤ m) (c : Channels α) :
    ∃ most, t.topFloor ≤ most ∧ most ≤ t.topCeil ∧ (t.quantise c).largest = most.toNat ∧
      (t.bottomFloor most).toNat ≤ (t.quantise c).smallest ∧
      (t.quantise c).smallest ≤ (t.bottomCeil most).toNat := by
  -- the bounds are in order, so that none of them gives way
  have hceil : (if t.topCeil < t.topFloor then t.topFloor else t.topCeil) = t.topCeil :=
    if_neg (UInt8.not_lt.mpr htop)
  have hlow : t.topFloor ≤ t.mostOf c := by
    rw [mostOf, hceil]
    exact le_clampByte htop _
  have hhigh : t.mostOf c ≤ t.topCeil := by
    rw [mostOf, hceil]
    exact clampByte_le htop _
  obtain ⟨horder, hle⟩ := hbottom (t.mostOf c) hlow hhigh
  have hfloor : t.bottomFloor (t.mostOf c) ≤ t.mostOf c := UInt8.le_trans horder hle
  have hget := get_quantise t c
  simp only [if_neg (UInt8.not_lt.mpr horder)] at hget
  -- the brightest channel and the darkest one are set, and the others are clamped between them
  have hleast : ∀ p, t.bottomFloor (t.mostOf c) ≤ (t.quantise c).get p := by
    intro p
    rw [hget p]
    split
    · exact hfloor
    · split
      · exact horder
      · exact le_clampByte hfloor _
  -- what is above the ceiling is set to it
  have hdark : (t.quantise c).get (c.darkest c.brightest) ≤ t.bottomCeil (t.mostOf c) := by
    rw [hget, if_neg (c.darkest_ne c.brightest)]
    split
    · exact UInt8.le_refl _
    · rename_i h
      exact UInt8.not_lt.mp fun hlt => h ⟨rfl, hlt⟩
  refine ⟨t.mostOf c, hlow, hhigh, ?_, ?_, ?_⟩
  · rw [← get_quantise_brightest]
    apply Rgb.largest_eq_get
    intro q
    rw [get_quantise_brightest]
    exact get_quantise_le_mostOf hfloor q
  · obtain ⟨p, hp⟩ := (t.quantise c).exists_smallest
    rw [hp]
    exact UInt8.le_iff_toNat_le.mp (hleast p)
  · exact Nat.le_trans ((t.quantise c).smallest_le_get _) (UInt8.le_iff_toNat_le.mp hdark)

end Tone

/-! ## The bounds -/

namespace Tone

/-- The bands of a tone lie in the unit interval. -/
structure InUnit (t : Tone Rat) : Prop where
  saturation : 0 ≤ t.saturation.lower ∧ t.saturation.lower ≤ t.saturation.upper ∧
    t.saturation.upper ≤ 1
  value : 0 ≤ t.value.lower ∧ t.value.lower ≤ t.value.upper ∧ t.value.upper ≤ 1

theorem inUnit_vivid : (vivid : Tone Rat).InUnit := by
  constructor <;> norm_num [vivid]

theorem inUnit_muted : (muted : Tone Rat).InUnit := by
  constructor <;> norm_num [muted]

variable {x : Rat} {t : Tone Rat}

theorem toNat_nearestByte_ceil (hlow : 0 ≤ x) (hhigh : x ≤ 255) :
    ((nearestByte (Scalar.ceil x)).toNat : Int) = ⌈x⌉ := by
  have hpos : 0 ≤ ⌈x⌉ := Int.ceil_nonneg hlow
  rw [Scalar.ceil_rat, nearestByte_intCast hpos (Int.ceil_le.mpr (by exact_mod_cast hhigh)),
    Int.toNat_of_nonneg hpos]

theorem toNat_nearestByte_floor (hlow : 0 ≤ x) (hhigh : x ≤ 255) :
    ((nearestByte (Scalar.floor x)).toNat : Int) = ⌊x⌋ := by
  have hpos : 0 ≤ ⌊x⌋ := Int.floor_nonneg.mpr hlow
  have hle : ⌊x⌋ ≤ 255 := by exact_mod_cast (Int.floor_le x).trans hhigh
  rw [Scalar.floor_rat, nearestByte_intCast hpos hle, Int.toNat_of_nonneg hpos]

theorem toNat_topFloor (h : t.InUnit) : (t.topFloor.toNat : Int) = ⌈255 * t.value.lower⌉ := by
  have hedge : t.value.lower * 255.0 = 255 * t.value.lower := by norm_num [mul_comm]
  obtain ⟨hlow, hle, hhigh⟩ := h.value
  rw [topFloor, hedge, toNat_nearestByte_ceil (by linarith) (by linarith)]

theorem toNat_topCeil (h : t.InUnit) : (t.topCeil.toNat : Int) = ⌊255 * t.value.upper⌋ := by
  have hedge : t.value.upper * 255.0 = 255 * t.value.upper := by norm_num [mul_comm]
  obtain ⟨hlow, hle, hhigh⟩ := h.value
  rw [topCeil, hedge, toNat_nearestByte_floor (by linarith) (by linarith)]

/-- A fraction of a byte lies between nothing and the whole byte. -/
theorem fraction_of_byte {q : Rat} (hlow : 0 ≤ q) (hhigh : q ≤ 1) (m : UInt8) :
    0 ≤ q * m.toNat ∧ q * m.toNat ≤ m.toNat ∧ (m.toNat : Rat) ≤ 255 := by
  have hpos : (0 : Rat) ≤ m.toNat := Nat.cast_nonneg _
  refine ⟨mul_nonneg hlow hpos, mul_le_of_le_one_left hpos hhigh, ?_⟩
  exact_mod_cast Nat.le_of_lt_succ m.toNat_lt

theorem toNat_bottomFloor (h : t.InUnit) (m : UInt8) :
    ((t.bottomFloor m).toNat : Int) = ⌈(1 - t.saturation.upper) * m.toNat⌉ := by
  have hedge : 1.0 - t.saturation.upper = 1 - t.saturation.upper := by norm_num
  obtain ⟨hlow, hle, hhigh⟩ := h.saturation
  obtain ⟨hpos, hbelow, hbyte⟩ := fraction_of_byte (q := 1 - t.saturation.upper) (by linarith)
    (by linarith) m
  rw [bottomFloor, hedge]
  exact toNat_nearestByte_ceil hpos (hbelow.trans hbyte)

theorem toNat_bottomCeil (h : t.InUnit) (m : UInt8) :
    ((t.bottomCeil m).toNat : Int) = ⌊(1 - t.saturation.lower) * m.toNat⌋ := by
  have hedge : 1.0 - t.saturation.lower = 1 - t.saturation.lower := by norm_num
  obtain ⟨hlow, hle, hhigh⟩ := h.saturation
  obtain ⟨hpos, hbelow, hbyte⟩ := fraction_of_byte (q := 1 - t.saturation.lower) (by linarith)
    (by linarith) m
  rw [bottomCeil, hedge]
  exact toNat_nearestByte_floor hpos (hbelow.trans hbyte)

theorem bottomFloor_le (h : t.InUnit) (m : UInt8) : t.bottomFloor m ≤ m := by
  obtain ⟨hlow, hle, hhigh⟩ := h.saturation
  obtain ⟨-, hbelow, -⟩ := fraction_of_byte (q := 1 - t.saturation.upper) (by linarith)
    (by linarith) m
  have hceil : ⌈(1 - t.saturation.upper) * m.toNat⌉ ≤ m.toNat :=
    Int.ceil_le.mpr (by exact_mod_cast hbelow)
  rw [← toNat_bottomFloor h] at hceil
  exact UInt8.le_iff_toNat_le.mpr (by exact_mod_cast hceil)

end Tone

/-- The bounds of both tones are the whole numbers next to the exact edges of their bands. -/
structure BoundsAreExact (α : Type) [Scalar α] : Prop where
  vividTopFloor : (Tone.vivid : Tone α).topFloor = 171
  vividTopCeil : (Tone.vivid : Tone α).topCeil = 255
  vividBottomFloor : ∀ m, 171 ≤ m → ((Tone.vivid : Tone α).bottomFloor m).toNat = 0
  vividBottomCeil : ∀ m, 171 ≤ m → ((Tone.vivid : Tone α).bottomCeil m).toNat = 4 * m.toNat / 5
  mutedTopFloor : (Tone.muted : Tone α).topFloor = 0
  mutedTopCeil : (Tone.muted : Tone α).topCeil = 170
  mutedBottomFloor : ∀ m, m ≤ 170 →
    ((Tone.muted : Tone α).bottomFloor m).toNat = (4 * m.toNat + 4) / 5
  mutedBottomCeil : ∀ m, m ≤ 170 → ((Tone.muted : Tone α).bottomCeil m).toNat = m.toNat

/-- What holds of all 256 bytes holds of every byte. -/
theorem forall_byte {P : UInt8 → Prop} (h : ∀ n < 256, P (UInt8.ofNat n)) (m : UInt8) : P m := by
  have hm := h m.toNat m.toNat_lt
  rwa [UInt8.ofNat_toNat] at hm

theorem boundsAreExact_binary64 : BoundsAreExact Float where
  vividTopFloor := by decide +kernel
  vividTopCeil := by decide +kernel
  vividBottomFloor := forall_byte (by decide +kernel)
  vividBottomCeil := forall_byte (by decide +kernel)
  mutedTopFloor := by decide +kernel
  mutedTopCeil := by decide +kernel
  mutedBottomFloor := forall_byte (by decide +kernel)
  mutedBottomCeil := forall_byte (by decide +kernel)

theorem floor_four_fifths (m : Nat) : ⌊(4 / 5 : Rat) * m⌋ = ((4 * m / 5 : Nat) : Int) := by
  have hdiv : (4 / 5 : Rat) * m = ((4 * m : Int) : Rat) / (5 : Nat) := by
    push_cast
    ring
  rw [hdiv, Rat.floor_intCast_div_natCast]
  push_cast
  rfl

theorem ceil_four_fifths (m : Nat) : ⌈(4 / 5 : Rat) * m⌉ = (((4 * m + 4) / 5 : Nat) : Int) := by
  have hdiv : (4 / 5 : Rat) * m = ((4 * m : Int) : Rat) / (5 : Nat) := by
    push_cast
    ring
  rw [hdiv, Rat.ceil_intCast_div_natCast]
  push_cast
  omega

theorem boundsAreExact_rational : BoundsAreExact Rat where
  vividTopFloor := by decide +kernel
  vividTopCeil := by decide +kernel
  vividBottomFloor m _ := by
    have hedge : 1 - (Tone.vivid : Tone Rat).saturation.upper = 0 := by norm_num [Tone.vivid]
    have hfloor := Tone.toNat_bottomFloor Tone.inUnit_vivid m
    rw [hedge, zero_mul, Int.ceil_zero] at hfloor
    exact_mod_cast hfloor
  vividBottomCeil m _ := by
    have hedge : 1 - (Tone.vivid : Tone Rat).saturation.lower = 4 / 5 := by
      norm_num [Tone.vivid]
    have hceil := Tone.toNat_bottomCeil Tone.inUnit_vivid m
    rw [hedge, floor_four_fifths] at hceil
    exact_mod_cast hceil
  mutedTopFloor := by decide +kernel
  mutedTopCeil := by decide +kernel
  mutedBottomFloor m _ := by
    have hedge : 1 - (Tone.muted : Tone Rat).saturation.upper = 4 / 5 := by
      norm_num [Tone.muted]
    have hfloor := Tone.toNat_bottomFloor Tone.inUnit_muted m
    rw [hedge, ceil_four_fifths] at hfloor
    exact_mod_cast hfloor
  mutedBottomCeil m _ := by
    have hedge : 1 - (Tone.muted : Tone Rat).saturation.lower = 1 := by norm_num [Tone.muted]
    have hceil := Tone.toNat_bottomCeil Tone.inUnit_muted m
    rw [hedge, one_mul, Int.floor_natCast] at hceil
    exact_mod_cast hceil

namespace Tone

variable {α : Type} [Scalar α]

theorem isVivid_quantise (h : BoundsAreExact α) (c : Channels α) :
    ((vivid : Tone α).quantise c).IsVivid := by
  have htop : (vivid : Tone α).topFloor ≤ (vivid : Tone α).topCeil := by
    rw [h.vividTopFloor, h.vividTopCeil]
    decide
  -- nowhere in the band is the floor of the smallest byte above its ceiling
  have hbottom : ∀ m, (vivid : Tone α).topFloor ≤ m → m ≤ (vivid : Tone α).topCeil →
      (vivid : Tone α).bottomFloor m ≤ (vivid : Tone α).bottomCeil m ∧
        (vivid : Tone α).bottomCeil m ≤ m := by
    intro m hlow _
    rw [h.vividTopFloor] at hlow
    rw [UInt8.le_iff_toNat_le, UInt8.le_iff_toNat_le, h.vividBottomFloor m hlow,
      h.vividBottomCeil m hlow]
    omega
  -- the smallest byte is at most four fifths of the largest one
  obtain ⟨most, hlow, _, hlargest, _, hsmallest⟩ := quantise_within htop hbottom c
  rw [h.vividTopFloor] at hlow
  rw [h.vividBottomCeil most hlow] at hsmallest
  have hleast : 171 ≤ most.toNat := UInt8.le_iff_toNat_le.mp hlow
  constructor <;> omega

theorem isMuted_quantise (h : BoundsAreExact α) (c : Channels α) :
    ((muted : Tone α).quantise c).IsMuted := by
  have htop : (muted : Tone α).topFloor ≤ (muted : Tone α).topCeil := by
    rw [h.mutedTopFloor, h.mutedTopCeil]
    decide
  have hbottom : ∀ m, (muted : Tone α).topFloor ≤ m → m ≤ (muted : Tone α).topCeil →
      (muted : Tone α).bottomFloor m ≤ (muted : Tone α).bottomCeil m ∧
        (muted : Tone α).bottomCeil m ≤ m := by
    intro m _ hhigh
    rw [h.mutedTopCeil] at hhigh
    rw [UInt8.le_iff_toNat_le, UInt8.le_iff_toNat_le, h.mutedBottomFloor m hhigh,
      h.mutedBottomCeil m hhigh]
    omega
  obtain ⟨most, _, hhigh, hlargest, hsmallest, _⟩ := quantise_within htop hbottom c
  rw [h.mutedTopCeil] at hhigh
  rw [h.mutedBottomFloor most hhigh] at hsmallest
  have hmost : most.toNat ≤ 170 := UInt8.le_iff_toNat_le.mp hhigh
  constructor <;> omega

end Tone

/-! ## Brightness and saturation -/

namespace Rgb

/-- The edge of the bands lies between two bytes. -/
theorem le_value_iff (c : Rgb) :
    0.67 ≤ (Hsv.ofRgb c : Hsv Rat).value ↔ 171 ≤ c.largest := by
  rw [Hsv.value_ofRgb, le_div_iff₀ (by norm_num)]
  constructor
  · intro h
    by_contra hlt
    have hle : (c.largest : Rat) ≤ 170 := by exact_mod_cast Nat.lt_succ_iff.mp (not_le.mp hlt)
    linarith
  · intro h
    have hle : (171 : Rat) ≤ c.largest := by exact_mod_cast h
    linarith

theorem value_le_iff (c : Rgb) :
    (Hsv.ofRgb c : Hsv Rat).value ≤ 0.67 ↔ c.largest ≤ 170 := by
  rw [Hsv.value_ofRgb, div_le_iff₀ (by norm_num)]
  constructor
  · intro h
    by_contra hlt
    have hle : (171 : Rat) ≤ c.largest := by exact_mod_cast not_le.mp hlt
    linarith
  · intro h
    have hle : (c.largest : Rat) ≤ 170 := by exact_mod_cast h
    linarith

theorem le_saturation_iff {c : Rgb} (h : 0 < c.largest) :
    0.2 ≤ (Hsv.ofRgb c : Hsv Rat).saturation ↔ 5 * c.smallest ≤ 4 * c.largest := by
  have hpos : (0 : Rat) < c.largest := by exact_mod_cast h
  rw [Hsv.saturation_ofRgb, le_div_iff₀ hpos, ← Nat.cast_le (α := Rat)]
  push_cast
  constructor <;> intro h <;> linarith

theorem saturation_le_iff (c : Rgb) :
    (Hsv.ofRgb c : Hsv Rat).saturation ≤ 0.2 ↔ 4 * c.largest ≤ 5 * c.smallest := by
  rcases Nat.eq_zero_or_pos c.largest with hzero | hpos
  · -- black has no saturation
    rw [Hsv.saturation_ofRgb, hzero]
    norm_num
  · have hpos : (0 : Rat) < c.largest := by exact_mod_cast hpos
    rw [Hsv.saturation_ofRgb, div_le_iff₀ hpos, ← Nat.cast_le (α := Rat)]
    push_cast
    constructor <;> intro h <;> linarith

theorem isVivid_iff (c : Rgb) : c.IsVivid ↔ 0.67 ≤ (Hsv.ofRgb c : Hsv Rat).value ∧
    0.2 ≤ (Hsv.ofRgb c : Hsv Rat).saturation := by
  rw [le_value_iff]
  constructor
  · rintro ⟨hvalue, hsaturation⟩
    exact ⟨hvalue, (le_saturation_iff (by omega)).mpr hsaturation⟩
  · rintro ⟨hvalue, hsaturation⟩
    exact ⟨hvalue, (le_saturation_iff (by omega)).mp hsaturation⟩

theorem isMuted_iff (c : Rgb) : c.IsMuted ↔ (Hsv.ofRgb c : Hsv Rat).value ≤ 0.67 ∧
    (Hsv.ofRgb c : Hsv Rat).saturation ≤ 0.2 := by
  rw [value_le_iff, saturation_le_iff, IsMuted]

theorem IsVivid.outshines {c d : Rgb} (hc : c.IsVivid) (hd : d.IsMuted) : c.Outshines d := by
  constructor
  · rw [Hsv.value_ofRgb, Hsv.value_ofRgb, div_lt_div_iff_of_pos_right (by norm_num)]
    have hbytes : d.largest < c.largest := by
      have hleast := hc.1
      have hmost := hd.1
      omega
    exact_mod_cast hbytes
  · exact ((isMuted_iff d).mp hd).2.trans ((isVivid_iff c).mp hc).2

end Rgb

/--
**Derived colours keep to their band.** In exact arithmetic, quantising any channels whatever to the
vivid tone gives a bright, saturated colour, and to the muted tone a dark, greyish one; so do the
colours of a seed and those of any random words. In bytes this is what the bands of value and
saturation say. The letters of a keyword are therefore brighter than its background and no less
saturated, when its colours are computed exactly as well as when they are computed on binary64
numbers, as they are for a rule.
-/
theorem derived_colours_keep_to_their_band :
    (∀ c : Channels Rat, ((Tone.vivid : Tone Rat).quantise c).IsVivid ∧
      ((Tone.muted : Tone Rat).quantise c).IsMuted) ∧
    (∀ seed, (Rgb.vividOfSeed Rat seed).IsVivid ∧ (Rgb.mutedOfSeed Rat seed).IsMuted) ∧
    (∀ e, (Rgb.draw Rat e).1.IsVivid) ∧
    (∀ c : Rgb, (c.IsVivid ↔ 0.67 ≤ (Hsv.ofRgb c : Hsv Rat).value ∧
        0.2 ≤ (Hsv.ofRgb c : Hsv Rat).saturation) ∧
      (c.IsMuted ↔ (Hsv.ofRgb c : Hsv Rat).value ≤ 0.67 ∧
        (Hsv.ofRgb c : Hsv Rat).saturation ≤ 0.2)) ∧
    ∀ keyword, (Rgb.vividOfSeed Rat keyword).Outshines (Rgb.mutedOfSeed Rat keyword) ∧
      (Role.foreground.colourOf keyword).Outshines (Role.background.colourOf keyword) := by
  have hexact := boundsAreExact_rational
  have hbinary := boundsAreExact_binary64
  refine ⟨?_, ?_, ?_, ?_, ?_⟩
  · intro c
    exact ⟨Tone.isVivid_quantise hexact c, Tone.isMuted_quantise hexact c⟩
  · intro seed
    exact ⟨Tone.isVivid_quantise hexact _, Tone.isMuted_quantise hexact _⟩
  · intro e
    exact Tone.isVivid_quantise hexact _
  · intro c
    exact ⟨c.isVivid_iff, c.isMuted_iff⟩
  · intro keyword
    refine ⟨?_, ?_⟩
    · exact (Tone.isVivid_quantise hexact _).outshines (Tone.isMuted_quantise hexact _)
    · exact (Tone.isVivid_quantise hbinary _).outshines (Tone.isMuted_quantise hbinary _)

end Highlight
