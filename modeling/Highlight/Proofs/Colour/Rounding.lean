import Highlight.Proofs.Colour.Place

/-!
# Quantising changes no more than it must

A number rounds to one byte (`roundsTo_iff`), and a larger number to no smaller one. So the
brightest channel rounds to the largest byte and the darkest to the smallest. If these two lie
within the bands there is nothing to clamp, and quantising is rounding
(`quantise_eq_rounded`). Otherwise bytes are moved, but never past each other: apart from the
brightest, all channels are clamped alike, and the one clamp more that the darkest has only lowers
it (`quantise_le_quantise`).
-/

namespace Highlight

/-! ## Rounding -/

/-- The whole number nearest to `x`; a half goes away from zero. -/
structure IsNearest (x : Rat) (n : Int) : Prop where
  close : |x - n| ≤ 1 / 2
  away : |x - n| = 1 / 2 → |x| < |(n : Rat)|

/-- The byte that `x` rounds to: the nearest whole number, or the end of the bytes it is beyond. -/
def RoundsTo (x : Rat) (b : UInt8) : Prop :=
  ∃ n, IsNearest x n ∧ (b.toNat : Int) = max 0 (min 255 n)

namespace IsNearest

variable {x y : Rat} {m n : Int}

theorem neg (h : IsNearest x n) : IsNearest (-x) (-n) := by
  have hsub : -x - ((-n : Int) : Rat) = -(x - n) := by
    push_cast
    ring
  constructor
  · rw [hsub, abs_neg]
    exact h.close
  · rw [hsub, abs_neg, Int.cast_neg, abs_neg, abs_neg]
    exact h.away

/-- A smaller number is nearest to no greater one, unless the two are the same. -/
theorem le_of_lt (hx : IsNearest x m) (hy : IsNearest y n) (h : x < y) : m ≤ n := by
  by_contra hlt
  have hstep : (n : Rat) + 1 ≤ m := by exact_mod_cast not_le.mp hlt
  have hlow := (abs_le.mp hx.close).1
  have hhigh := (abs_le.mp hy.close).2
  linarith

/-- Between two whole numbers a half lies one step away from either, and only one is farther from
zero. -/
theorem not_succ (hn : IsNearest x n) : ¬IsNearest x (n + 1) := by
  intro hm
  have hlow := (abs_le.mp hm.close).1
  have hhigh := (abs_le.mp hn.close).2
  push_cast at hlow
  -- both are half a step away
  obtain rfl : x = n + 1 / 2 := by linarith
  have hdown := hn.away (by norm_num)
  have hup := hm.away (by push_cast; norm_num)
  rcases le_or_gt 0 n with h | h
  · have hpos : (0 : Rat) ≤ n := by exact_mod_cast h
    rw [abs_of_nonneg hpos, abs_of_nonneg (by linarith)] at hdown
    linarith
  · have hneg : (n : Rat) + 1 ≤ 0 := by exact_mod_cast h
    push_cast at hup
    rw [abs_of_nonpos hneg, abs_of_nonpos (by linarith)] at hup
    linarith

theorem unique (hm : IsNearest x m) (hn : IsNearest x n) : m = n := by
  have hstep : |(m : Rat) - n| ≤ 1 := by
    have hm' := abs_le.mp hm.close
    have hn' := abs_le.mp hn.close
    rw [abs_le]
    constructor <;> linarith
  have hstep : |m - n| ≤ 1 := by exact_mod_cast hstep
  obtain ⟨hlow, hhigh⟩ := abs_le.mp hstep
  rcases lt_trichotomy m n with h | h | h
  · obtain rfl : n = m + 1 := by omega
    exact absurd hn hm.not_succ
  · exact h
  · obtain rfl : m = n + 1 := by omega
    exact absurd hm hn.not_succ

theorem nearest_of_nonneg (h : 0 ≤ x) : IsNearest x (Rat.nearest x) := by
  have hfloor : Rat.nearest x = ⌊x + 1 / 2⌋ := if_pos h
  have hlow := Int.floor_le (x + 1 / 2)
  have hhigh := Int.lt_floor_add_one (x + 1 / 2)
  rw [hfloor]
  constructor
  · rw [abs_le]
    constructor <;> linarith
  · intro hhalf
    -- only the number above is a half away
    have habove : x - ⌊x + 1 / 2⌋ = -(1 / 2) := by
      rcases abs_eq (by norm_num) |>.mp hhalf with heq | heq
      · linarith
      · exact heq
    rw [abs_of_nonneg h, abs_of_nonneg (by linarith)]
    linarith

theorem nearest (x : Rat) : IsNearest x (Rat.nearest x) := by
  rcases le_or_gt 0 x with h | h
  · exact nearest_of_nonneg h
  · have hmirror : Rat.nearest x = -Rat.nearest (-x) := by
      rw [Rat.nearest, Rat.nearest, if_neg (not_le.mpr h), if_pos (by linarith)]
    have hneg := (nearest_of_nonneg (x := -x) (by linarith)).neg
    rwa [neg_neg, ← hmirror] at hneg

end IsNearest

theorem roundsTo_iff {x : Rat} {b : UInt8} : RoundsTo x b ↔ b = Tone.nearestByte x := by
  constructor
  · rintro ⟨n, hn, hb⟩
    rw [hn.unique (.nearest x), ← Tone.toNat_nearestByte] at hb
    exact UInt8.toNat_inj.mp (Int.ofNat_inj.mp hb)
  · rintro rfl
    exact ⟨_, .nearest x, Tone.toNat_nearestByte x⟩

theorem Tone.nearestByte_mono {x y : Rat} (h : x ≤ y) : nearestByte x ≤ nearestByte y := by
  rcases h.eq_or_lt with rfl | h
  · exact UInt8.le_refl _
  · have hle := (IsNearest.nearest x).le_of_lt (.nearest y) h
    have hx := toNat_nearestByte x
    have hy := toNat_nearestByte y
    rw [UInt8.le_iff_toNat_le]
    omega

/-! ## The brightest channel and the darkest -/

namespace Channels

variable (c : Channels Rat)

theorem le_brighter (p q : Primary) :
    c.get p ≤ c.get (if c.get p < c.get q then q else p) ∧
      c.get q ≤ c.get (if c.get p < c.get q then q else p) := by
  split
  · next h => exact ⟨h.le, le_rfl⟩
  · next h => exact ⟨le_rfl, not_lt.mp h⟩

theorem darker_le (p q : Primary) :
    c.get (if c.get p < c.get q then p else q) ≤ c.get p ∧
      c.get (if c.get p < c.get q then p else q) ≤ c.get q := by
  split
  · next h => exact ⟨le_rfl, h.le⟩
  · next h => exact ⟨not_lt.mp h, le_rfl⟩

theorem get_le_brightest (p : Primary) : c.get p ≤ c.get c.brightest := by
  obtain ⟨hred, hgreen⟩ := c.le_brighter .red .green
  obtain ⟨hbest, hblue⟩ := c.le_brighter (if c.get .red < c.get .green then .green else .red) .blue
  cases p with
  | red => exact hred.trans hbest
  | green => exact hgreen.trans hbest
  | blue => exact hblue

theorem get_brightest : c.get c.brightest = c.most := by
  apply le_antisymm (c.get_le_most _)
  obtain ⟨p, hp⟩ := c.exists_get_eq_most
  rw [← hp]
  exact c.get_le_brightest p

theorem darkest_le_get {p top : Primary} (h : p ≠ top) : c.get (c.darkest top) ≤ c.get p := by
  cases top with
  | red =>
    obtain ⟨hblue, hgreen⟩ := c.darker_le .blue .green
    cases p with
    | red => exact absurd rfl h
    | green => exact hgreen
    | blue => exact hblue
  | green =>
    obtain ⟨hblue, hred⟩ := c.darker_le .blue .red
    cases p with
    | red => exact hred
    | green => exact absurd rfl h
    | blue => exact hblue
  | blue =>
    obtain ⟨hgreen, hred⟩ := c.darker_le .green .red
    cases p with
    | red => exact hred
    | green => exact hgreen
    | blue => exact absurd rfl h

end Channels

namespace Rgb

theorem ext_get {c d : Rgb} (h : ∀ p, c.get p = d.get p) : c = d := by
  obtain ⟨red, green, blue⟩ := c
  obtain rfl : red = d.red := h .red
  obtain rfl : green = d.green := h .green
  obtain rfl : blue = d.blue := h .blue
  rfl

end Rgb

/-- Every channel rounded to a byte. -/
def Channels.rounded (c : Channels Rat) : Rgb :=
  ⟨Tone.nearestByte c.red, Tone.nearestByte c.green, Tone.nearestByte c.blue⟩

namespace Channels

variable (c : Channels Rat)

theorem get_rounded (p : Primary) : c.rounded.get p = Tone.nearestByte (c.get p) := by
  cases p <;> rfl

theorem largest_rounded : c.rounded.largest = (Tone.nearestByte (c.get c.brightest)).toNat := by
  rw [← get_rounded]
  apply Rgb.largest_eq_get
  intro q
  rw [get_rounded, get_rounded]
  exact Tone.nearestByte_mono (c.get_le_brightest q)

theorem smallest_rounded : c.rounded.smallest
    = (Tone.nearestByte (c.get (c.darkest c.brightest))).toNat := by
  rw [← get_rounded]
  apply Rgb.smallest_eq_get
  intro q
  rw [get_rounded, get_rounded]
  apply Tone.nearestByte_mono
  by_cases hq : q = c.brightest
  · rw [hq]
    exact c.get_le_brightest _
  · exact c.darkest_le_get hq

end Channels

/-! ## Clamping -/

theorem clampByte_of_within {low high x : UInt8} (hlow : low ≤ x) (hhigh : x ≤ high) :
    clampByte low high x = x := by
  rw [clampByte, if_neg (UInt8.not_lt.mpr hlow), if_neg (UInt8.not_lt.mpr hhigh)]

theorem clampByte_mono {low high x y : UInt8} (horder : low ≤ high) (h : x ≤ y) :
    clampByte low high x ≤ clampByte low high y := by
  simp only [clampByte, UInt8.le_iff_toNat_le, UInt8.lt_iff_toNat_lt] at *
  split_ifs <;> omega

namespace Tone

/-! ## Quantising -/

section Quantising

variable {t : Tone Rat} {c : Channels Rat} {p q : Primary}

/-- There is one clamp more for the darkest channel only. -/
theorem get_quantise_eq_clamped (hp : p ≠ c.brightest)
    (hdark : p = c.darkest c.brightest → t.clamped c p ≤ t.bottomCeil (t.mostOf c)) :
    (t.quantise c).get p = t.clamped c p := by
  rw [get_quantise]
  dsimp only
  rw [if_neg hp, if_neg]
  · rfl
  · rintro ⟨hp', hlt⟩
    have hle : t.clamped c p ≤ t.bottomCeil (t.mostOf c) := hdark hp'
    have hlt : (if t.bottomCeil (t.mostOf c) < t.bottomFloor (t.mostOf c)
        then t.bottomFloor (t.mostOf c) else t.bottomCeil (t.mostOf c)) < t.clamped c p := hlt
    split at hlt
    · next h => exact UInt8.not_lt.mpr hle (UInt8.lt_trans h hlt)
    · exact UInt8.not_lt.mpr hle hlt

/-- **No channel is moved past another.** -/
theorem quantise_le_quantise (h : t.InUnit) (hpq : c.get p < c.get q) :
    (t.quantise c).get p ≤ (t.quantise c).get q := by
  have hp : p ≠ c.brightest := by
    rintro rfl
    exact absurd hpq (not_lt.mpr (c.get_le_brightest q))
  by_cases hq : q = c.brightest
  · rw [hq, get_quantise_brightest]
    exact get_quantise_le_mostOf (bottomFloor_le h _) p
  · have hq' : q ≠ c.darkest c.brightest := by
      rintro rfl
      exact absurd hpq (not_lt.mpr (c.darkest_le_get hp))
    rw [get_quantise_eq_clamped hq (absurd · hq')]
    exact UInt8.le_trans (get_quantise_le_clamped hp)
      (clampByte_mono (bottomFloor_le h _) (nearestByte_mono hpq.le))

/-- The bytes of a colour that lies within the bands of a tone. -/
structure HoldsBytes (t : Tone Rat) (r : Rgb) : Prop where
  topFloor : ⌈255 * t.value.lower⌉ ≤ (r.largest : Int)
  topCeil : (r.largest : Int) ≤ ⌊255 * t.value.upper⌋
  bottomFloor : (1 - t.saturation.upper) * r.largest ≤ r.smallest
  bottomCeil : (r.smallest : Rat) ≤ (1 - t.saturation.lower) * r.largest

/-- The bands in bytes, where `most` is the largest byte of the colour. -/
theorem HoldsBytes.within {r : Rgb} {most : UInt8} (hr : t.HoldsBytes r) (h : t.InUnit)
    (hmost : r.largest = most.toNat) : (t.topFloor ≤ most ∧ most ≤ t.topCeil) ∧
      (t.bottomFloor most).toNat ≤ r.smallest ∧ r.smallest ≤ (t.bottomCeil most).toNat := by
  obtain ⟨htop, htop', hbottom, hbottom'⟩ := hr
  rw [hmost] at htop htop' hbottom hbottom'
  have hfloor : ⌈(1 - t.saturation.upper) * most.toNat⌉ ≤ (r.smallest : Int) :=
    Int.ceil_le.mpr (by exact_mod_cast hbottom)
  have hceil : (r.smallest : Int) ≤ ⌊(1 - t.saturation.lower) * most.toNat⌋ :=
    Int.le_floor.mpr (by exact_mod_cast hbottom')
  rw [← toNat_topFloor h] at htop
  rw [← toNat_topCeil h] at htop'
  rw [← toNat_bottomFloor h] at hfloor
  rw [← toNat_bottomCeil h] at hceil
  rw [UInt8.le_iff_toNat_le, UInt8.le_iff_toNat_le]
  omega

/-- **Within the bands quantising is rounding.** -/
theorem quantise_eq_rounded (h : t.InUnit) (hr : t.HoldsBytes c.rounded) :
    t.quantise c = c.rounded := by
  obtain ⟨⟨htop, htop'⟩, hbottom, hbottom'⟩ := hr.within h c.largest_rounded
  have hmost : t.mostOf c = nearestByte (c.get c.brightest) := by
    rw [mostOf, if_neg (UInt8.not_lt.mpr (UInt8.le_trans htop htop')),
      clampByte_of_within htop htop']
  rw [← hmost] at hbottom hbottom'
  -- so every channel is within its bounds already
  have hclamped (p : Primary) : t.clamped c p = nearestByte (c.get p) := by
    refine clampByte_of_within (UInt8.le_iff_toNat_le.mpr ?_) ?_
    · rw [← c.get_rounded]
      exact hbottom.trans (c.rounded.smallest_le_get p)
    · rw [hmost]
      exact nearestByte_mono (c.get_le_brightest p)
  apply Rgb.ext_get
  intro p
  rw [c.get_rounded]
  by_cases hp : p = c.brightest
  · rw [hp, get_quantise_brightest, hmost]
  · rw [get_quantise_eq_clamped hp, hclamped]
    rintro rfl
    rw [hclamped, UInt8.le_iff_toNat_le, ← c.smallest_rounded]
    exact hbottom'

end Quantising

/--
**Quantising changes a colour only where it must.** In exact arithmetic let any channels be
quantised to the vivid tone or to the muted one. Each channel rounds to one byte. If these bytes
make a colour whose largest byte lies in the band of values, and whose smallest byte keeps the
saturation in its band, then that colour is what comes out. In any case the largest byte comes out
where a channel is largest, and a channel that is smaller than another comes out no larger.
-/
theorem quantise_changes_what_it_must {t : Tone Rat} (ht : t = vivid ∨ t = muted)
    (c : Channels Rat) :
    (∀ p b, RoundsTo (c.get p) b ↔ b = c.rounded.get p) ∧
    (t.HoldsBytes c.rounded → t.quantise c = c.rounded) ∧
    (∃ p, c.get p = c.most ∧ ((t.quantise c).get p).toNat = (t.quantise c).largest) ∧
    ∀ p q, c.get p < c.get q → (t.quantise c).get p ≤ (t.quantise c).get q := by
  have hunit : t.InUnit := by
    rcases ht with rfl | rfl
    · exact inUnit_vivid
    · exact inUnit_muted
  refine ⟨?_, quantise_eq_rounded hunit, ⟨c.brightest, c.get_brightest, ?_⟩, ?_⟩
  · intro p b
    rw [roundsTo_iff, c.get_rounded]
  · symm
    apply Rgb.largest_eq_get
    intro q
    rw [get_quantise_brightest]
    exact get_quantise_le_mostOf (bottomFloor_le hunit _) q
  · intro p q hpq
    exact quantise_le_quantise hunit hpq

/-- A colour within the vivid bands, with a half to round. -/
theorem quantise_changes_what_it_must_of_crimson :
    let crimson : Channels Rat := ⟨200.2, 40.7, 90.5⟩
    crimson.rounded = ⟨200, 41, 91⟩ ∧ RoundsTo 90.5 91 ∧
      vivid.HoldsBytes crimson.rounded ∧ vivid.quantise crimson = ⟨200, 41, 91⟩ ∧
      crimson.get .green < crimson.get .blue ∧
      (vivid.quantise crimson).get .green ≤ (vivid.quantise crimson).get .blue := by
  intro crimson
  obtain ⟨hround, hwithin, _, horder⟩ := quantise_changes_what_it_must (Or.inl rfl) crimson
  have hrounded : crimson.rounded = ⟨200, 41, 91⟩ := by decide +kernel
  have hlargest : Rgb.largest ⟨200, 41, 91⟩ = 200 := rfl
  have hsmallest : Rgb.smallest ⟨200, 41, 91⟩ = 41 := rfl
  have hholds : vivid.HoldsBytes crimson.rounded := by
    rw [hrounded]
    constructor <;> norm_num [vivid, hlargest, hsmallest, Int.ceil_le, Int.le_floor]
  have hlt : crimson.get .green < crimson.get .blue := by norm_num [crimson, Channels.get]
  refine ⟨hrounded, ?_, hholds, ?_, hlt, horder _ _ hlt⟩
  · exact (hround .blue 91).mpr (by decide +kernel)
  · rw [hwithin hholds, hrounded]

end Tone

end Highlight
