import Highlight.Proofs.Colour.Conversion

/-!
# A tone keeps the hue

A hue, saturation and value are read off their channels again, unless the channels lie too close
together to be told apart. Those of bytes are far apart, and moving them into a tone brings them no
closer than a fraction of a byte: the spread of the channels is the saturation times the value, and
both tones leave more than an eighth of it, where it was not nothing. A grey has hue zero; the
vivid tone makes a red of it, and the muted tone leaves it grey.
-/

namespace Highlight

namespace Channels

/-- Channels between 0 and 255, brought to the unit interval. -/
def unit (c : Channels Rat) : Channels Rat := ⟨c.red / 255, c.green / 255, c.blue / 255⟩

theorem unit_scale (c : Channels Rat) : (c.scale 255.0).unit = c := by
  have hback (x : Rat) : x * 255.0 / 255 = x := by norm_num
  simp only [unit, scale, hback]

/-- The hue of a grey has its channels at either end of the spread. -/
theorem apart_depthsOf_zero {gap : Rat} (h : gap ≤ 1) : (depthsOf 0).Apart gap := by
  have hdepths : depthsOf 0 = ⟨0, 1, 1⟩ := by
    rw [depthsOf, zero_mul, Int.floor_zero, Int.fract_zero, depths]
    norm_num
  have hdown : gap ≤ |(0 : Rat) - 1| := by norm_num [h]
  have hup : gap ≤ |(1 : Rat) - 0| := by norm_num [h]
  rw [hdepths]
  rintro (_ | _ | _) (_ | _ | _)
  · exact Or.inl rfl
  · exact Or.inr hdown
  · exact Or.inr hdown
  · exact Or.inr hup
  · exact Or.inl rfl
  · exact Or.inl rfl
  · exact Or.inr hup
  · exact Or.inl rfl
  · exact Or.inl rfl

end Channels

namespace Hsv

/-! ## Reading channels back -/

/-- A grey without a hue, or a colour whose channels are told apart. -/
def Legible (c : Hsv Rat) : Prop :=
  (c.hue = 0 ∧ c.saturation = 0) ∨ (0 < c.value * c.saturation ∧
    (Channels.depthsOf c.hue).Apart (Scalar.epsilon / (c.value * c.saturation)))

/-- **A hue, saturation and value are read off their channels again.** -/
theorem ofChannels_channels {c : Hsv Rat} (hunit : c.InUnit) (hlegible : c.Legible) :
    c.channels.InUnit ∧ ofChannels c.channels = c := by
  obtain ⟨hue, saturation, value⟩ := c
  rcases hlegible with ⟨rfl, rfl⟩ | ⟨hspread, hapart⟩
  · -- a grey has no hue
    rw [channels_of_grey le_rfl, ofChannels_grey]
    refine ⟨?_, rfl⟩
    rintro (_ | _ | _) <;> exact hunit.value
  · -- the spread is wide enough to be seen, and so is every step of it
    have hsaturation : 0 < saturation := pos_of_mul_pos_right hspread hunit.value.1
    have hvalue : 0 < value := pos_of_mul_pos_left hspread hunit.saturation.1
    have hle : value * saturation ≤ value := mul_le_of_le_one_right hvalue.le hunit.saturation.2
    rw [channels_of_pos hsaturation (fits64_mul_six hunit.hue.1 hunit.hue.2)]
    constructor
    · exact Channels.inUnit_below _ (Channels.isFull_depthsOf hue).inUnit hspread.le hle
        hunit.value.2
    · rw [ofChannels_below hunit.hue.1 hunit.hue.2 hspread
        ((Channels.apart_below_iff _ hspread).mpr hapart), mul_div_cancel_left₀ _ hvalue.ne']

/-! ## The hue, saturation and value of bytes -/

/-- What the hue, saturation and value of bytes have in common. -/
structure OfBytes (c : Hsv Rat) : Prop where
  inUnit : c.InUnit
  /-- The channels are no closer than bytes are. -/
  apart : (Channels.depthsOf c.hue).Apart (1 / 255)
  /-- A colour is a grey, or its channels spread over one step of a byte at least. -/
  spread : (c.hue = 0 ∧ c.saturation = 0) ∨ 1 / 255 ≤ c.value * c.saturation

theorem ofBytes_ofRgb (c : Rgb) : OfBytes (ofRgb c) := by
  have hunit := Channels.inUnit_ofRgb c
  have hapart := Channels.apart_ofRgb c
  have hinUnit := (channels_ofChannels hunit (hapart.mono epsilon_le)).1
  rw [ofRgb] at *
  generalize (Channels.ofRgb c : Channels Rat) = bytes at *
  rcases grey_or_below bytes with ⟨x, rfl⟩ | ⟨hue, most, spread, hhue, hhue', hspread, rfl⟩
  · -- a grey byte colour
    rw [ofChannels_grey] at hinUnit ⊢
    exact ⟨hinUnit, Channels.apart_depthsOf_zero (by norm_num), Or.inl ⟨rfl, rfl⟩⟩
  · obtain ⟨top, htop⟩ := (Channels.isFull_depthsOf hue).top
    obtain ⟨bottom, hbottom⟩ := (Channels.isFull_depthsOf hue).bottom
    -- the largest byte and the smallest one differ by the whole spread
    have hmost := hunit top
    have hleast := hunit bottom
    have hstep := hapart top bottom
    rw [Channels.get_below, htop, mul_zero, sub_zero] at hmost
    rw [Channels.get_below, hbottom, mul_one] at hleast
    rw [Channels.get_below, Channels.get_below, htop, hbottom, mul_zero, sub_zero, mul_one,
      sub_sub_cancel, abs_of_pos hspread] at hstep
    have hstep : 1 / 255 ≤ spread := hstep.resolve_left (by linarith)
    have hback : most * (spread / most) = spread := mul_div_cancel₀ _ (by linarith)
    have hdepths : (Channels.depthsOf hue).Apart (1 / 255) := by
      apply ((Channels.apart_below_iff most hspread).mp hapart).mono
      exact le_div_self (by norm_num) hspread (by linarith)
    rw [ofChannels_below hhue hhue' hspread (hapart.mono epsilon_le)] at hinUnit ⊢
    exact ⟨hinUnit, hdepths, Or.inr (by rwa [hback])⟩

/-- Channels as far apart as bytes stay legible while the spread is not far too small for it. -/
theorem legible_of_spread {hue saturation value : Rat}
    (hapart : (Channels.depthsOf hue).Apart (1 / 255))
    (hspread : 255 * Scalar.epsilon ≤ value * saturation) : Legible ⟨hue, saturation, value⟩ := by
  have hpos : 0 < value * saturation := by linarith [epsilon_pos]
  refine Or.inr ⟨hpos, hapart.mono ?_⟩
  rw [div_le_div_iff₀ hpos (by norm_num)]
  linarith

end Hsv

/-! ## Bands -/

/-- The numbers of a band. -/
def Band.Holds (b : Band Rat) (x : Rat) : Prop := b.lower ≤ x ∧ x ≤ b.upper

/-- The colours of a tone. -/
def Tone.Holds (t : Tone Rat) (c : Hsv Rat) : Prop :=
  t.saturation.Holds c.saturation ∧ t.value.Holds c.value

theorem Band.place_rat (b : Band Rat) (x : Rat) :
    b.place x = (b.upper - b.lower) * x + b.lower := rfl

theorem Band.holds_place {b : Band Rat} (hb : b.lower ≤ b.upper) {x : Rat} (hx : 0 ≤ x ∧ x ≤ 1) :
    b.Holds (b.place x) := by
  have hlength : 0 ≤ b.upper - b.lower := by linarith
  have hlow := mul_nonneg hlength hx.1
  have hhigh := mul_le_of_le_one_right hlength hx.2
  rw [place_rat]
  exact ⟨by linarith, by linarith⟩

namespace Tone

/-- The hue, saturation and value of a colour moved into a tone. -/
def move (t : Tone Rat) (c : Hsv Rat) : Hsv Rat :=
  ⟨c.hue, t.saturation.place c.saturation, t.value.place c.value⟩

theorem unit_place (t : Tone Rat) (c : Rgb) :
    (t.place c).unit = (t.move (Hsv.ofRgb c)).channels :=
  Channels.unit_scale _

theorem move_vivid (c : Hsv Rat) :
    vivid.move c = ⟨c.hue, 0.2 + 0.8 * c.saturation, 0.67 + 0.33 * c.value⟩ := by
  rw [move, Band.place_rat, Band.place_rat, vivid]
  norm_num [add_comm]

theorem move_muted (c : Hsv Rat) :
    muted.move c = ⟨c.hue, 0.2 * c.saturation, 0.67 * c.value⟩ := by
  rw [move, Band.place_rat, Band.place_rat, muted]
  norm_num

variable {t : Tone Rat}

theorem InUnit.holds_move (h : t.InUnit) {c : Hsv Rat} (hc : c.InUnit) : t.Holds (t.move c) :=
  ⟨Band.holds_place h.saturation.2.1 hc.saturation, Band.holds_place h.value.2.1 hc.value⟩

theorem InUnit.inUnit_move (h : t.InUnit) {c : Hsv Rat} (hc : c.InUnit) : (t.move c).InUnit := by
  obtain ⟨⟨hlow, hhigh⟩, hlow', hhigh'⟩ := h.holds_move hc
  exact ⟨hc.hue, ⟨h.saturation.1.trans hlow, hhigh.trans h.saturation.2.2⟩,
    h.value.1.trans hlow', hhigh'.trans h.value.2.2⟩

/-- **What is moved into a tone is read off the channels.** -/
theorem ofChannels_place (h : t.InUnit) {c : Rgb} (hlegible : (t.move (Hsv.ofRgb c)).Legible) :
    (t.place c).unit.InUnit ∧
      Hsv.ofChannels (t.place c).unit = t.move (Hsv.ofRgb c) ∧
      t.Holds (Hsv.ofChannels (t.place c).unit) := by
  have hc := (Hsv.ofBytes_ofRgb c).inUnit
  obtain ⟨hunit, hback⟩ := Hsv.ofChannels_channels (h.inUnit_move hc) hlegible
  rw [unit_place, hback]
  exact ⟨hunit, rfl, h.holds_move hc⟩

theorem legible_vivid {c : Hsv Rat} (h : c.OfBytes) : (vivid.move c).Legible := by
  rw [move_vivid]
  apply Hsv.legible_of_spread h.apart
  -- the least saturation and the least value are far from nothing
  have hsaturation : 0.2 ≤ 0.2 + 0.8 * c.saturation := by linarith [h.inUnit.saturation.1]
  have hvalue : 0.67 ≤ 0.67 + 0.33 * c.value := by linarith [h.inUnit.value.1]
  have hproduct : 0.67 * 0.2 ≤ (0.67 + 0.33 * c.value) * (0.2 + 0.8 * c.saturation) := by
    gcongr
  have hepsilon : 255 * Scalar.epsilon ≤ (0.67 * 0.2 : Rat) := by
    rw [Scalar.epsilon_rat]
    norm_num
  exact hepsilon.trans hproduct

theorem legible_muted {c : Hsv Rat} (h : c.OfBytes) : (muted.move c).Legible := by
  rw [move_muted]
  rcases h.spread with ⟨hhue, hsaturation⟩ | hspread
  · -- a grey stays grey
    left
    rw [hhue, hsaturation, mul_zero]
    exact ⟨rfl, rfl⟩
  · apply Hsv.legible_of_spread h.apart
    -- the spread shrinks by a constant factor
    have hproduct : 0.67 * c.value * (0.2 * c.saturation) = 0.134 * (c.value * c.saturation) := by
      ring
    have hepsilon : 255 * Scalar.epsilon ≤ (0.134 * (1 / 255) : Rat) := by
      rw [Scalar.epsilon_rat]
      norm_num
    rw [hproduct]
    linarith

/--
**A tone changes saturation and value alone.** In exact arithmetic, move any byte colour into the
vivid tone or the muted one, and divide the channels by 255. They lie in the unit interval, their
hue is that of the colour, their saturation and value are those of the colour mapped onto the bands
of the tone, and so they lie within these bands. A grey has hue zero in both tones.
-/
theorem place_keeps_hue :
    (∀ c : Rgb,
      let colour : Hsv Rat := Hsv.ofRgb c
      let bright : Channels Rat := (vivid.place c).unit
      let dark : Channels Rat := (muted.place c).unit
      (bright.InUnit ∧
        Hsv.ofChannels bright
          = ⟨colour.hue, 0.2 + 0.8 * colour.saturation, 0.67 + 0.33 * colour.value⟩ ∧
        vivid.Holds (Hsv.ofChannels bright)) ∧
      dark.InUnit ∧
        Hsv.ofChannels dark = ⟨colour.hue, 0.2 * colour.saturation, 0.67 * colour.value⟩ ∧
        muted.Holds (Hsv.ofChannels dark)) ∧
    ∀ b : UInt8, (Hsv.ofChannels (vivid.place ⟨b, b, b⟩).unit).hue = 0 ∧
      (Hsv.ofChannels (muted.place ⟨b, b, b⟩).unit).hue = 0 := by
  have hvivid (c : Rgb) := ofChannels_place inUnit_vivid (legible_vivid (Hsv.ofBytes_ofRgb c))
  have hmuted (c : Rgb) := ofChannels_place inUnit_muted (legible_muted (Hsv.ofBytes_ofRgb c))
  constructor
  · intro c
    dsimp only
    rw [← move_vivid, ← move_muted]
    exact ⟨hvivid c, hmuted c⟩
  · intro b
    have hgrey : (Hsv.ofRgb ⟨b, b, b⟩ : Hsv Rat).hue = 0 :=
      congrArg Hsv.hue (Hsv.ofChannels_grey _)
    rw [(hvivid _).2.1, (hmuted _).2.1]
    exact ⟨hgrey, hgrey⟩

end Tone

end Highlight
