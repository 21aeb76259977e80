import Highlight.Proofs.Colour.Exact

/-!
# Hues as places on a circle

A hue is a place on a circle of six sectors. In each sector one channel is the largest, one the
smallest, and the third one goes from one to the other. What a hue settles about the channels is
therefore how far each of them lies below the largest one, as a fraction of the spread between the
largest and the smallest: its depths. Both conversions pass through them. The channels of a hue,
saturation and value stand at the depths of the hue, and channels at the depths of a hue are read as
that hue; channels that are not a grey stand at the depths of some hue.
-/

namespace Highlight

/-! ## The largest channel and the smallest -/

namespace Channels

variable {c : Channels Rat}

/-- The largest channel. -/
def most (c : Channels Rat) : Rat := max (max c.red c.green) c.blue

/-- The smallest channel. -/
def least (c : Channels Rat) : Rat := min (min c.red c.green) c.blue

/-- Every channel lies in the unit interval. -/
def InUnit (c : Channels Rat) : Prop := ∀ p, 0 ≤ c.get p ∧ c.get p ≤ 1

/-- Any two channels are equal or differ by `gap` at least. -/
def Apart (gap : Rat) (c : Channels Rat) : Prop :=
  ∀ p q, c.get p = c.get q ∨ gap ≤ |c.get p - c.get q|

theorem get_le_most (c : Channels Rat) (p : Primary) : c.get p ≤ c.most := by
  cases p with
  | red => exact le_max_of_le_left (le_max_left _ _)
  | green => exact le_max_of_le_left (le_max_right _ _)
  | blue => exact le_max_right _ _

theorem least_le_get (c : Channels Rat) (p : Primary) : c.least ≤ c.get p := by
  cases p with
  | red => exact min_le_of_left_le (min_le_left _ _)
  | green => exact min_le_of_left_le (min_le_right _ _)
  | blue => exact min_le_right _ _

theorem exists_get_eq_most (c : Channels Rat) : ∃ p, c.get p = c.most := by
  unfold most
  rcases max_choice (max c.red c.green) c.blue with h | h <;> rw [h]
  · rcases max_choice c.red c.green with h | h <;> rw [h]
    · exact ⟨.red, rfl⟩
    · exact ⟨.green, rfl⟩
  · exact ⟨.blue, rfl⟩

theorem exists_get_eq_least (c : Channels Rat) : ∃ p, c.get p = c.least := by
  unfold least
  rcases min_choice (min c.red c.green) c.blue with h | h <;> rw [h]
  · rcases min_choice c.red c.green with h | h <;> rw [h]
    · exact ⟨.red, rfl⟩
    · exact ⟨.green, rfl⟩
  · exact ⟨.blue, rfl⟩

/-- Channels that lie apart are the largest one if they are close to it. -/
theorem Apart.abs_sub_most_lt_iff {gap : Rat} (h : c.Apart gap) (hgap : 0 < gap) (p : Primary) :
    |c.get p - c.most| < gap ↔ c.get p = c.most := by
  obtain ⟨q, hq⟩ := c.exists_get_eq_most
  rw [← hq]
  constructor
  · intro hlt
    rcases h p q with heq | hle
    · exact heq
    · exact absurd hlt (not_lt.mpr hle)
  · intro heq
    rwa [heq, sub_self, abs_zero]

end Channels

/-! ## From channels to a hue -/

namespace Hsv

/-- The hue of channels in sixths of the circle, counted from red in either direction. -/
def sixths (c : Channels Rat) : Rat :=
  if c.red = c.most then (c.green - c.blue) / (c.most - c.least)
  else if c.green = c.most then 2 + (c.blue - c.red) / (c.most - c.least)
  else 4 + (c.red - c.green) / (c.most - c.least)

theorem ofChannels_eq (c : Channels Rat) : ofChannels c
    = if |c.most - c.least| < Scalar.epsilon then ⟨0, 0, c.most⟩
      else
        let spread := c.most - c.least
        let red := (c.most - c.red) / spread
        let green := (c.most - c.green) / spread
        let blue := (c.most - c.blue) / spread
        let sixths :=
          if |c.red - c.most| < Scalar.epsilon then blue - green
          else if |c.green - c.most| < Scalar.epsilon then 2 + red - blue
          else 4 + green - red
        ⟨Int.fract (sixths / 6), spread / c.most, c.most⟩ := by
  have hzero : (0.0 : Rat) = 0 := by norm_num
  have htwo : (2.0 : Rat) = 2 := by norm_num
  have hfour : (4.0 : Rat) = 4 := by norm_num
  have hsix : (6.0 : Rat) = 6 := by norm_num
  simp only [ofChannels, Scalar.max_rat, Scalar.min_rat, Scalar.abs_rat, hzero, htwo, hfour, hsix]
  rfl

/-- A grey has neither hue nor saturation. -/
theorem ofChannels_grey (x : Rat) : ofChannels ⟨x, x, x⟩ = ⟨0, 0, x⟩ := by
  have hmost : Channels.most ⟨x, x, x⟩ = x := by rw [Channels.most, max_self, max_self]
  have hleast : Channels.least ⟨x, x, x⟩ = x := by rw [Channels.least, min_self, min_self]
  rw [ofChannels_eq, hmost, hleast, if_pos]
  rw [sub_self, abs_zero, Scalar.epsilon_rat]
  norm_num

theorem epsilon_pos : (0 : Rat) < Scalar.epsilon := by
  rw [Scalar.epsilon_rat]
  norm_num

/-- Where channels are apart, the tests for channels that are close to each other are exact. -/
theorem ofChannels_of_apart {c : Channels Rat} (hapart : c.Apart Scalar.epsilon)
    (h : c.least < c.most) :
    ofChannels c = ⟨Int.fract (sixths c / 6), (c.most - c.least) / c.most, c.most⟩ := by
  have hgrey : ¬ |c.most - c.least| < Scalar.epsilon := by
    obtain ⟨p, hp⟩ := c.exists_get_eq_least
    rw [← hp, abs_sub_comm, hapart.abs_sub_most_lt_iff epsilon_pos, hp]
    exact h.ne
  -- only a channel that is the largest one is close to it
  have hred := hapart.abs_sub_most_lt_iff epsilon_pos .red
  have hgreen := hapart.abs_sub_most_lt_iff epsilon_pos .green
  rw [ofChannels_eq, if_neg hgrey]
  dsimp only [Channels.get] at hred hgreen ⊢
  simp only [hred, hgreen, sixths]
  congr 2
  split
  · ring
  · split <;> ring

end Hsv

/-! ## Depths -/

namespace Channels

/--
How far each channel lies below the largest one, as a fraction of the whole spread, where `f` of the
way through sector `k` of the circle is gone: one channel is the largest, one the smallest, and the
third one rises or falls between them.
-/
def depths (k : Int) (f : Rat) : Channels Rat :=
  match k % 6 with
  | 0 => ⟨0, 1 - f, 1⟩
  | 1 => ⟨f, 0, 1⟩
  | 2 => ⟨1, 0, 1 - f⟩
  | 3 => ⟨1, f, 0⟩
  | 4 => ⟨1 - f, 1, 0⟩
  | _ => ⟨0, 1, f⟩

/-- The channels at the given depths, where the largest one is `most` and the smallest one `spread`
below it. -/
def below (most spread : Rat) (d : Channels Rat) : Channels Rat :=
  ⟨most - spread * d.red, most - spread * d.green, most - spread * d.blue⟩

/-- The depths of a hue. -/
def depthsOf (hue : Rat) : Channels Rat := depths ⌊hue * 6⌋ (Int.fract (hue * 6))

variable {spread f : Rat} {d : Channels Rat} (most : Rat)

theorem get_below (p : Primary) : (below most spread d).get p = most - spread * d.get p := by
  cases p <;> rfl

theorem below_red (y z : Rat) :
    below most spread ⟨0, y, z⟩ = ⟨most, most - spread * y, most - spread * z⟩ := by
  rw [below, mul_zero, sub_zero]

theorem below_green (x z : Rat) :
    below most spread ⟨x, 0, z⟩ = ⟨most - spread * x, most, most - spread * z⟩ := by
  rw [below, mul_zero, sub_zero]

theorem below_blue (x y : Rat) :
    below most spread ⟨x, y, 0⟩ = ⟨most - spread * x, most - spread * y, most⟩ := by
  rw [below, mul_zero, sub_zero]

/-- Depths go from nothing to the whole spread. -/
structure IsFull (d : Channels Rat) : Prop where
  inUnit : d.InUnit
  top : ∃ p, d.get p = 0
  bottom : ∃ p, d.get p = 1

theorem sector_cases (k : Int) :
    k % 6 = 0 ∨ k % 6 = 1 ∨ k % 6 = 2 ∨ k % 6 = 3 ∨ k % 6 = 4 ∨ k % 6 = 5 := by
  omega

/-- Sectors are counted round and round. -/
theorem depths_emod (k : Int) (f : Rat) : depths (k % 6) f = depths k f := by
  rw [depths, depths, Int.emod_emod_of_dvd k (dvd_refl 6)]

theorem isFull_depths (k : Int) (hf : 0 ≤ f) (hf' : f ≤ 1) : (depths k f).IsFull := by
  have hzero : (0 : Rat) ≤ 0 ∧ (0 : Rat) ≤ 1 := by norm_num
  have hone : (0 : Rat) ≤ 1 ∧ (1 : Rat) ≤ 1 := by norm_num
  have hfall : 0 ≤ f ∧ f ≤ 1 := ⟨hf, hf'⟩
  have hrise : 0 ≤ 1 - f ∧ 1 - f ≤ 1 := ⟨by linarith, by linarith⟩
  have hunit {d : Channels Rat} (hred : 0 ≤ d.red ∧ d.red ≤ 1) (hgreen : 0 ≤ d.green ∧ d.green ≤ 1)
      (hblue : 0 ≤ d.blue ∧ d.blue ≤ 1) : d.InUnit
    | .red => hred
    | .green => hgreen
    | .blue => hblue
  rw [← depths_emod]
  -- each sector has a largest channel and a smallest one of its own
  rcases sector_cases k with h | h | h | h | h | h <;> rw [h]
  · exact ⟨hunit hzero hrise hone, ⟨.red, rfl⟩, ⟨.blue, rfl⟩⟩
  · exact ⟨hunit hfall hzero hone, ⟨.green, rfl⟩, ⟨.blue, rfl⟩⟩
  · exact ⟨hunit hone hzero hrise, ⟨.green, rfl⟩, ⟨.red, rfl⟩⟩
  · exact ⟨hunit hone hfall hzero, ⟨.blue, rfl⟩, ⟨.red, rfl⟩⟩
  · exact ⟨hunit hrise hone hzero, ⟨.blue, rfl⟩, ⟨.green, rfl⟩⟩
  · exact ⟨hunit hzero hone hfall, ⟨.red, rfl⟩, ⟨.green, rfl⟩⟩

theorem isFull_depthsOf (hue : Rat) : (depthsOf hue).IsFull :=
  isFull_depths _ (Int.fract_nonneg _) (Int.fract_lt_one _).le

/-- A whole number of turns leads back to the same depths. -/
theorem depthsOf_add_turns (hue : Rat) (turns : Int) :
    depthsOf (hue + turns) = depthsOf hue := by
  have hplace : (hue + turns) * 6 = hue * 6 + ((6 * turns : Int) : Rat) := by
    push_cast
    ring
  rw [depthsOf, depthsOf, hplace, Int.floor_add_intCast, Int.fract_add_intCast, ← depths_emod,
    Int.add_mul_emod_self_left, depths_emod]

theorem most_below (h : d.IsFull) (hspread : 0 ≤ spread) : (below most spread d).most = most := by
  apply le_antisymm
  · obtain ⟨p, hp⟩ := (below most spread d).exists_get_eq_most
    rw [← hp, get_below]
    linarith [mul_nonneg hspread (h.inUnit p).1]
  · obtain ⟨p, hp⟩ := h.top
    have hget := (below most spread d).get_le_most p
    rwa [get_below, hp, mul_zero, sub_zero] at hget

theorem least_below (h : d.IsFull) (hspread : 0 ≤ spread) :
    (below most spread d).least = most - spread := by
  apply le_antisymm
  · obtain ⟨p, hp⟩ := h.bottom
    have hget := (below most spread d).least_le_get p
    rwa [get_below, hp, mul_one] at hget
  · obtain ⟨p, hp⟩ := (below most spread d).exists_get_eq_least
    rw [← hp, get_below]
    linarith [mul_le_of_le_one_right hspread (h.inUnit p).2]

/-- The spread scales what lies between channels. -/
theorem apart_below_iff {gap : Rat} (hspread : 0 < spread) :
    (below most spread d).Apart gap ↔ d.Apart (gap / spread) := by
  refine forall_congr' fun p => forall_congr' fun q => ?_
  have hsub : (below most spread d).get p - (below most spread d).get q
      = spread * (d.get q - d.get p) := by
    rw [get_below, get_below]
    ring
  have hsame : (below most spread d).get p = (below most spread d).get q ↔ d.get p = d.get q := by
    rw [← sub_eq_zero, hsub, mul_eq_zero, or_iff_right hspread.ne', sub_eq_zero, eq_comm]
  rw [hsame, hsub, abs_mul, abs_of_pos hspread, abs_sub_comm, div_le_iff₀' hspread]

theorem inUnit_below (h : d.InUnit) (hspread : 0 ≤ spread) (hle : spread ≤ most)
    (hmost : most ≤ 1) : (below most spread d).InUnit := by
  intro p
  rw [get_below]
  have hlow := mul_nonneg hspread (h p).1
  have hhigh := mul_le_of_le_one_right hspread (h p).2
  exact ⟨by linarith, by linarith⟩

end Channels

namespace Hsv

/-- Where on the circle depths stand. -/
theorem sixths_below {most spread x y z : Rat} (h : Channels.IsFull ⟨x, y, z⟩)
    (hspread : 0 < spread) : sixths (.below most spread ⟨x, y, z⟩)
      = if x = 0 then z - y else if y = 0 then 2 + x - z else 4 + y - x := by
  have hdiv (u v : Rat) : (most - spread * u - (most - spread * v)) / spread = v - u := by
    field_simp
    ring
  have htop (u : Rat) : most - spread * u = most ↔ u = 0 := by
    rw [sub_eq_self, mul_eq_zero, or_iff_right hspread.ne']
  rw [sixths, Channels.most_below most h hspread.le, Channels.least_below most h hspread.le,
    sub_sub_cancel]
  simp only [Channels.below, hdiv, htop]
  split
  · rfl
  · split <;> ring

/-- In each sector the depths are read as the place they were made for, up to a turn. -/
theorem exists_sixths_depths {k : Int} {f spread : Rat} (most : Rat) (hk : 0 ≤ k) (hk' : k < 6)
    (hf : 0 ≤ f) (hf' : f < 1) (hspread : 0 < spread) :
    ∃ turns : Int, sixths (.below most spread (.depths k f)) = k + f - 6 * turns := by
  have hone : (1 : Rat) ≠ 0 := one_ne_zero
  have hrise : 1 - f ≠ 0 := sub_ne_zero.mpr hf'.ne'
  have hfull := Channels.isFull_depths k hf hf'.le
  have hsector := Channels.sector_cases k
  rw [Int.emod_eq_of_lt hk hk'] at hsector
  rcases hsector with rfl | rfl | rfl | rfl | rfl | rfl
  · refine ⟨0, (sixths_below (x := 0) (y := 1 - f) (z := 1) hfull hspread).trans ?_⟩
    rw [if_pos rfl]
    push_cast
    ring
  · refine ⟨0, (sixths_below (x := f) (y := 0) (z := 1) hfull hspread).trans ?_⟩
    split
    · next h =>
      -- red and green are equal
      rw [h]
      norm_num
    · rw [if_pos rfl]
      push_cast
      ring
  · refine ⟨0, (sixths_below (x := 1) (y := 0) (z := 1 - f) hfull hspread).trans ?_⟩
    rw [if_neg hone, if_pos rfl]
    push_cast
    ring
  · refine ⟨0, (sixths_below (x := 1) (y := f) (z := 0) hfull hspread).trans ?_⟩
    rw [if_neg hone]
    split
    · next h =>
      -- green and blue are equal
      rw [h]
      norm_num
    · push_cast
      ring
  · refine ⟨0, (sixths_below (x := 1 - f) (y := 1) (z := 0) hfull hspread).trans ?_⟩
    rw [if_neg hrise, if_neg hone]
    push_cast
    ring
  · -- the last sector is behind red, so that a whole turn comes off
    refine ⟨1, (sixths_below (x := 0) (y := 1) (z := f) hfull hspread).trans ?_⟩
    rw [if_pos rfl]
    push_cast
    ring

/-- **The channels of a hue are read as that hue.** -/
theorem ofChannels_below {hue most spread : Rat} (hhue : 0 ≤ hue) (hhue' : hue < 1)
    (hspread : 0 < spread)
    (hapart : (Channels.below most spread (.depthsOf hue)).Apart Scalar.epsilon) :
    ofChannels (.below most spread (.depthsOf hue)) = ⟨hue, spread / most, most⟩ := by
  have hf : 0 ≤ Int.fract (hue * 6) := Int.fract_nonneg _
  have hf' : Int.fract (hue * 6) < 1 := Int.fract_lt_one _
  have hk : 0 ≤ ⌊hue * 6⌋ := Int.floor_nonneg.mpr (by linarith)
  have hk' : ⌊hue * 6⌋ < 6 := Int.floor_lt.mpr (by push_cast; linarith)
  have hfull := Channels.isFull_depths ⌊hue * 6⌋ hf hf'.le
  have hmost := Channels.most_below most hfull hspread.le
  have hleast := Channels.least_below most hfull hspread.le
  -- the hue comes back up to whole turns
  obtain ⟨turns, hturns⟩ := exists_sixths_depths most hk hk' hf hf' hspread
  have hplace : ((⌊hue * 6⌋ : Rat) + Int.fract (hue * 6) - 6 * turns) / 6 = hue - turns := by
    rw [Int.floor_add_fract]
    ring
  rw [Channels.depthsOf] at hapart ⊢
  rw [ofChannels_of_apart hapart (by rw [hmost, hleast]; linarith), hturns, hplace,
    Int.fract_sub_intCast, Int.fract_eq_self.mpr ⟨hhue, hhue'⟩, hmost, hleast, sub_sub_cancel]

/-! ## From a hue to channels -/

/-- A number that can be made a signed integer of 64 bits. -/
def Fits64 (x : Rat) : Prop := -2 ^ 63 ≤ x ∧ x < 2 ^ 63

theorem toInteger_floor {x : Rat} (h : Fits64 x) : Scalar.toInteger ((⌊x⌋ : Int) : Rat) = ⌊x⌋ := by
  have hlow : -2 ^ 63 ≤ ⌊x⌋ := Int.le_floor.mpr (by push_cast; exact h.1)
  have hhigh : ⌊x⌋ < 2 ^ 63 := Int.floor_lt.mpr (by push_cast; exact h.2)
  have hinteger : Scalar.toInteger ((⌊x⌋ : Int) : Rat)
      = clampInt (-2 ^ 63) (2 ^ 63 - 1) (Rat.truncate ((⌊x⌋ : Int) : Rat)) := rfl
  rw [hinteger, Rat.truncate_intCast, clampInt, if_neg (by omega), if_neg (by omega)]

theorem channels_of_grey {hue saturation value : Rat} (h : saturation ≤ 0) :
    (⟨hue, saturation, value⟩ : Hsv Rat).channels = ⟨value, value, value⟩ := by
  have hzero : (0.0 : Rat) = 0 := by norm_num
  rw [channels, if_pos]
  rw [hzero]
  exact h

/-- **The channels of a hue stand at its depths.** -/
theorem channels_of_pos {hue saturation value : Rat} (h : 0 < saturation)
    (hfits : Fits64 (hue * 6)) : (⟨hue, saturation, value⟩ : Hsv Rat).channels
      = .below value (value * saturation) (.depthsOf hue) := by
  have hzero : (0.0 : Rat) = 0 := by norm_num
  have hone : (1.0 : Rat) = 1 := by norm_num
  have hsix : (6.0 : Rat) = 6 := by norm_num
  have hmulAdd (x y z : Rat) : Scalar.mulAdd x y z = x * y + z := rfl
  have hrest : hue * 6 + -(⌊hue * 6⌋ : Rat) = Int.fract (hue * 6) := (sub_eq_add_neg _ _).symm
  have hlow : value * (1 - saturation) = value - value * saturation * 1 := by ring
  have hfalling (f : Rat) : value * (saturation * -f + 1) = value - value * saturation * f := by
    ring
  simp only [channels, hzero, hone, hsix, if_neg (not_le.mpr h), toInteger_floor hfits,
    Scalar.floor_rat, hmulAdd, hrest, hfalling, hlow]
  unfold Channels.depthsOf Channels.depths
  -- the sector tells which of the three products each channel is
  rcases Channels.sector_cases ⌊hue * 6⌋ with hk | hk | hk | hk | hk | hk <;> rw [hk]
  · exact (Channels.below_red _ _ _).symm
  · exact (Channels.below_green _ _ _).symm
  · exact (Channels.below_green _ _ _).symm
  · exact (Channels.below_blue _ _ _).symm
  · exact (Channels.below_blue _ _ _).symm
  · exact (Channels.below_red _ _ _).symm

/-! ## Every colour has a hue -/

/-- A place in a sector is a hue. -/
theorem exists_depthsOf_eq {k : Int} {f : Rat} (hk : 0 ≤ k) (hk' : k < 6) (hf : 0 ≤ f)
    (hf' : f < 1) : ∃ hue, 0 ≤ hue ∧ hue < 1 ∧ Channels.depthsOf hue = .depths k f := by
  have hlow : (0 : Rat) ≤ k := by exact_mod_cast hk
  have hhigh : (k : Rat) + 1 ≤ 6 := by exact_mod_cast hk'
  refine ⟨(k + f) / 6, by linarith, by linarith, ?_⟩
  have hfloor : ⌊f⌋ = 0 := Int.floor_eq_zero_iff.mpr ⟨hf, hf'⟩
  have hfract : Int.fract f = f := Int.fract_eq_self.mpr ⟨hf, hf'⟩
  rw [Channels.depthsOf, div_mul_cancel₀ _ (by norm_num), Int.floor_intCast_add, hfloor, add_zero,
    Int.fract_intCast_add, hfract]

/-- The hue in a sector where the channel in the middle rises from the smallest one. -/
theorem exists_rising {k : Int} (hk : 0 ≤ k) (hk' : k < 6) {most least x : Rat} (hlow : least ≤ x)
    (hhigh : x < most) : ∃ hue f, 0 ≤ hue ∧ hue < 1 ∧ Channels.depthsOf hue = .depths k f ∧
      x = most - (most - least) * (1 - f) := by
  have hspread : 0 < most - least := by linarith
  have hf : 0 ≤ (x - least) / (most - least) := div_nonneg (by linarith) hspread.le
  have hf' : (x - least) / (most - least) < 1 := by
    rw [div_lt_one hspread]
    linarith
  obtain ⟨hue, hhue, hhue', hdepths⟩ := exists_depthsOf_eq hk hk' hf hf'
  refine ⟨hue, _, hhue, hhue', hdepths, ?_⟩
  field_simp
  ring

/-- The hue in a sector where the channel in the middle falls from the largest one. -/
theorem exists_falling {k : Int} (hk : 0 ≤ k) (hk' : k < 6) {most least x : Rat} (hlow : least < x)
    (hhigh : x ≤ most) : ∃ hue f, 0 ≤ hue ∧ hue < 1 ∧ Channels.depthsOf hue = .depths k f ∧
      x = most - (most - least) * f := by
  have hspread : 0 < most - least := by linarith
  have hf : 0 ≤ (most - x) / (most - least) := div_nonneg (by linarith) hspread.le
  have hf' : (most - x) / (most - least) < 1 := by
    rw [div_lt_one hspread]
    linarith
  obtain ⟨hue, hhue, hhue', hdepths⟩ := exists_depthsOf_eq hk hk' hf hf'
  refine ⟨hue, _, hhue, hhue', hdepths, ?_⟩
  field_simp
  ring

/-- Channels that are not all equal are in one of six orders, and each of them is a sector. -/
theorem order_cases {red green blue : Rat} (h : ¬ (red = green ∧ green = blue)) :
    (blue ≤ green ∧ green < red) ∨ (blue < red ∧ red ≤ green) ∨ (red ≤ blue ∧ blue < green) ∨
      (red < green ∧ green ≤ blue) ∨ (green ≤ red ∧ red < blue) ∨ (green < blue ∧ blue ≤ red) := by
  grind

/-- **Channels are a grey, or stand at the depths of a hue.** -/
theorem grey_or_below (c : Channels Rat) : (∃ x, c = ⟨x, x, x⟩) ∨
    ∃ hue most spread, 0 ≤ hue ∧ hue < 1 ∧ 0 < spread ∧
      c = .below most spread (.depthsOf hue) := by
  obtain ⟨red, green, blue⟩ := c
  by_cases h : red = green ∧ green = blue
  · obtain ⟨rfl, rfl⟩ := h
    exact Or.inl ⟨red, rfl⟩
  right
  have hbottom (most least : Rat) : most - (most - least) * 1 = least := by ring
  rcases order_cases h with ⟨hlow, hhigh⟩ | ⟨hlow, hhigh⟩ | ⟨hlow, hhigh⟩ | ⟨hlow, hhigh⟩ |
    ⟨hlow, hhigh⟩ | ⟨hlow, hhigh⟩
  · -- red, green, blue
    obtain ⟨hue, f, hhue, hhue', hdepths, hgreen⟩ :=
      exists_rising (k := 0) (by decide) (by decide) hlow hhigh
    refine ⟨hue, red, red - blue, hhue, hhue', by linarith, ?_⟩
    rw [hdepths]
    refine Eq.trans ?_ (Channels.below_red _ (1 - f) 1).symm
    rw [← hgreen, hbottom]
  · -- green, red, blue
    obtain ⟨hue, f, hhue, hhue', hdepths, hred⟩ :=
      exists_falling (k := 1) (by decide) (by decide) hlow hhigh
    refine ⟨hue, green, green - blue, hhue, hhue', by linarith, ?_⟩
    rw [hdepths]
    refine Eq.trans ?_ (Channels.below_green _ f 1).symm
    rw [← hred, hbottom]
  · -- green, blue, red
    obtain ⟨hue, f, hhue, hhue', hdepths, hblue⟩ :=
      exists_rising (k := 2) (by decide) (by decide) hlow hhigh
    refine ⟨hue, green, green - red, hhue, hhue', by linarith, ?_⟩
    rw [hdepths]
    refine Eq.trans ?_ (Channels.below_green _ 1 (1 - f)).symm
    rw [← hblue, hbottom]
  · -- blue, green, red
    obtain ⟨hue, f, hhue, hhue', hdepths, hgreen⟩ :=
      exists_falling (k := 3) (by decide) (by decide) hlow hhigh
    refine ⟨hue, blue, blue - red, hhue, hhue', by linarith, ?_⟩
    rw [hdepths]
    refine Eq.trans ?_ (Channels.below_blue _ 1 f).symm
    rw [← hgreen, hbottom]
  · -- blue, red, green
    obtain ⟨hue, f, hhue, hhue', hdepths, hred⟩ :=
      exists_rising (k := 4) (by decide) (by decide) hlow hhigh
    refine ⟨hue, blue, blue - green, hhue, hhue', by linarith, ?_⟩
    rw [hdepths]
    refine Eq.trans ?_ (Channels.below_blue _ (1 - f) 1).symm
    rw [← hred, hbottom]
  · -- red, blue, green
    obtain ⟨hue, f, hhue, hhue', hdepths, hblue⟩ :=
      exists_falling (k := 5) (by decide) (by decide) hlow hhigh
    refine ⟨hue, red, red - green, hhue, hhue', by linarith, ?_⟩
    rw [hdepths]
    refine Eq.trans ?_ (Channels.below_red _ 1 f).symm
    rw [← hblue, hbottom]

end Hsv

end Highlight
