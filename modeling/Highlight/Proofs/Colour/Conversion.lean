import Highlight.Proofs.Colour.Band
import Highlight.Proofs.Colour.Circle

/-!
# Nothing is lost in hue, saturation and value

Channels in the unit interval that are equal or far enough apart are got back from their hue,
saturation and value. The bytes of a colour are at least one 255th apart, which is far enough.
-/

namespace Highlight

/-! ## Byte colours -/

namespace Channels

theorem Apart.mono {gap gap' : Rat} {c : Channels Rat} (h : c.Apart gap) (hle : gap' ≤ gap) :
    c.Apart gap' :=
  fun p q => (h p q).imp_right hle.trans

theorem get_ofRgb (c : Rgb) (p : Primary) :
    (ofRgb c : Channels Rat).get p = ((c.get p).toNat : Rat) / 255 := by
  rw [Hsv.channels_ofRgb]
  cases p <;> rfl

theorem inUnit_ofRgb (c : Rgb) : (ofRgb c : Channels Rat).InUnit := by
  intro p
  have hbyte : ((c.get p).toNat : Rat) ≤ 255 := by
    exact_mod_cast Nat.le_of_lt_succ (c.get p).toNat_lt
  rw [get_ofRgb]
  exact ⟨by positivity, by linarith⟩

theorem apart_ofRgb (c : Rgb) : (ofRgb c : Channels Rat).Apart (1 / 255) := by
  intro p q
  rw [get_ofRgb, get_ofRgb, ← sub_div, abs_div, abs_of_pos (by norm_num : (0 : Rat) < 255)]
  by_cases h : (c.get p).toNat = (c.get q).toNat
  · rw [h]
    exact Or.inl rfl
  · -- whole numbers that differ do so by one at least
    right
    have hne : ((c.get p).toNat : Int) - (c.get q).toNat ≠ 0 := by omega
    have hone : (1 : Rat) ≤ |((c.get p).toNat : Rat) - (c.get q).toNat| := by
      exact_mod_cast Int.one_le_abs hne
    exact div_le_div_of_nonneg_right hone (by norm_num)

end Channels

theorem toByte_add_half (b : UInt8) : Scalar.toByte ((b.toNat : Rat) + 0.5) = b := by
  have hlt := b.toNat_lt
  have hfloor : ⌊(b.toNat : Rat) + 0.5⌋ = b.toNat := by
    rw [Int.floor_natCast_add]
    norm_num
  have hbyte := Scalar.toNat_toByte ((b.toNat : Rat) + 0.5)
  rw [Rat.truncate_of_nonneg (by positivity), hfloor] at hbyte
  rw [← UInt8.toNat_inj]
  omega

/-- A byte colour is nearest to its own channels. -/
theorem toRgb_scale_ofRgb (c : Rgb) :
    ((Channels.ofRgb c : Channels Rat).scale 255.0).toRgb = c := by
  have hscale (b : UInt8) : (b.toNat : Rat) / 255 * 255.0 = b.toNat := by norm_num
  rw [Hsv.channels_ofRgb]
  simp only [Channels.scale, Channels.toRgb, hscale, toByte_add_half]

namespace Hsv

/-- The hue goes round the circle once, saturation and value lie in the unit interval. -/
structure InUnit (c : Hsv Rat) : Prop where
  hue : 0 ≤ c.hue ∧ c.hue < 1
  saturation : 0 ≤ c.saturation ∧ c.saturation ≤ 1
  value : 0 ≤ c.value ∧ c.value ≤ 1

theorem fits64_mul_six {hue : Rat} (h : 0 ≤ hue) (h' : hue < 1) : Fits64 (hue * 6) := by
  constructor <;> linarith

theorem epsilon_le : (Scalar.epsilon : Rat) ≤ 1 / 255 := by
  rw [Scalar.epsilon_rat]
  norm_num

/-- **Channels are got back from their hue, saturation and value.** -/
theorem channels_ofChannels {c : Channels Rat} (hunit : c.InUnit)
    (hapart : c.Apart Scalar.epsilon) :
    (ofChannels c).InUnit ∧ (ofChannels c).channels = c := by
  rcases grey_or_below c with ⟨x, rfl⟩ | ⟨hue, most, spread, hhue, hhue', hspread, rfl⟩
  · rw [ofChannels_grey]
    exact ⟨⟨by norm_num, by norm_num, hunit .red⟩, channels_of_grey le_rfl⟩
  · -- the largest channel and the smallest one are in the unit interval
    have hfull := Channels.isFull_depthsOf hue
    have hlow : 0 ≤ most - spread := by
      obtain ⟨p, hp⟩ := hfull.bottom
      have hget := (hunit p).1
      rwa [Channels.get_below, hp, mul_one] at hget
    have hhigh : most ≤ 1 := by
      obtain ⟨p, hp⟩ := hfull.top
      have hget := (hunit p).2
      rwa [Channels.get_below, hp, mul_zero, sub_zero] at hget
    have hmost : 0 < most := by linarith
    have hback : most * (spread / most) = spread := mul_div_cancel₀ _ hmost.ne'
    have hsaturation : spread / most ≤ 1 := (div_le_one hmost).mpr (by linarith)
    have hpos : 0 < spread / most := div_pos hspread hmost
    -- both ways pass through the same largest channel, spread and hue
    rw [ofChannels_below hhue hhue' hspread hapart,
      channels_of_pos hpos (fits64_mul_six hhue hhue'), hback]
    exact ⟨⟨⟨hhue, hhue'⟩, ⟨hpos.le, hsaturation⟩, ⟨hmost.le, hhigh⟩⟩, rfl⟩

/-- A whole number of turns more or less leads to the same place. -/
theorem channels_add_turns {hue saturation value : Rat} {turns : Int} (h : Fits64 (hue * 6))
    (h' : Fits64 ((hue + turns) * 6)) :
    (⟨hue + turns, saturation, value⟩ : Hsv Rat).channels = channels ⟨hue, saturation, value⟩ := by
  rcases le_or_gt saturation 0 with hgrey | hpos
  · rw [channels_of_grey hgrey, channels_of_grey hgrey]
  · rw [channels_of_pos hpos h, channels_of_pos hpos h', Channels.depthsOf_add_turns]

/--
**Nothing is lost in hue, saturation and value.** Let channels lie in the unit interval, and any two
of them be equal or no closer than the tests for equal ones can tell. Then their hue lies on the
circle and their saturation and value in the unit interval, and the channels are got back from
them. So is every byte colour. In the other direction whole turns of the hue make no difference, as
long as the sector can be counted in 64 bits.
-/
theorem conversion_loses_nothing :
    (∀ c : Channels Rat, c.InUnit → c.Apart Scalar.epsilon →
      (ofChannels c).InUnit ∧ (ofChannels c).channels = c) ∧
    (∀ c : Rgb, (ofRgb c : Hsv Rat).toRgb = c) ∧
    ∀ (hue saturation value : Rat) (turns : Int), Fits64 (6 * hue) → Fits64 (6 * (hue + turns)) →
      (⟨hue + turns, saturation, value⟩ : Hsv Rat).channels
        = channels ⟨hue, saturation, value⟩ := by
  refine ⟨fun c hunit hapart => channels_ofChannels hunit hapart, ?_, ?_⟩
  · intro c
    have hapart := (Channels.apart_ofRgb c).mono epsilon_le
    obtain ⟨_, hback⟩ := channels_ofChannels (Channels.inUnit_ofRgb c) hapart
    rw [toRgb, ofRgb, hback, toRgb_scale_ofRgb]
  · intro hue saturation value turns h h'
    rw [mul_comm] at h h'
    exact channels_add_turns h h'

/-- A pink whose blue exceeds its green, so that its hue is a little less than a turn. -/
theorem conversion_loses_nothing_of_pink :
    let pink : Channels Rat := ⟨9 / 10, 1 / 10, 3 / 10⟩
    pink.InUnit ∧ pink.Apart Scalar.epsilon ∧ (ofChannels pink).hue = 23 / 24 ∧
      (ofChannels pink).InUnit ∧ (ofChannels pink).channels = pink ∧
      Fits64 (6 * (23 / 24)) ∧ Fits64 (6 * (23 / 24 + (-3 : Int))) ∧
      (⟨23 / 24 + (-3 : Int), 8 / 9, 9 / 10⟩ : Hsv Rat).channels
        = channels ⟨23 / 24, 8 / 9, 9 / 10⟩ := by
  intro pink
  have hunit : pink.InUnit := by
    rintro (_ | _ | _) <;> constructor <;> norm_num [pink, Channels.get]
  have hapart : pink.Apart Scalar.epsilon := by
    rw [Scalar.epsilon_rat]
    rintro (_ | _ | _) (_ | _ | _) <;> norm_num [pink, Channels.get]
  have hfits : Fits64 (6 * (23 / 24)) := by constructor <;> norm_num
  have hfits' : Fits64 (6 * (23 / 24 + (-3 : Int))) := by constructor <;> norm_num
  obtain ⟨hchannels, _, hturns⟩ := conversion_loses_nothing
  obtain ⟨hinUnit, hback⟩ := hchannels pink hunit hapart
  exact ⟨hunit, hapart, by decide +kernel, hinUnit, hback, hfits, hfits',
    hturns _ _ _ _ hfits hfits'⟩

end Hsv

end Highlight
