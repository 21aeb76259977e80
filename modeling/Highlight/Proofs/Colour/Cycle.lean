import Highlight.Proofs.Colour.Rounding
import Highlight.Colour.Cycle

/-!
# Hues that do not come back

The hue after `i` steps is the first one plus `i` times the step, without the whole turns
(`hues_eq`). The step is a fraction with the denominator `2 * 10 ^ 14` in lowest terms, so that it
takes that many steps until a hue comes back (`nodup_hues`). Whatever its hue is, the largest
channel of a colour is the value and the smallest one the value less the spread, and so are the
largest and the smallest byte when they are rounded (`bytes_colour`).
-/

namespace Highlight.Cycle

/-- How far apart two hues are on the colour circle, by the shorter way round. -/
def distance (x y : Rat) : Rat := min |x - y| (1 - |x - y|)

/-- The hue that is `i` steps away from the place `x`. -/
def after (x : Rat) (i : Nat) : Rat := Int.fract (x + i * step)

theorem step_rat : (step : Rat) = 123606797749979 / (2 * 10 ^ 14) := by
  norm_num [step]

/-! ## Hues -/

/-- A shorter cycle is the beginning of a longer one. -/
theorem hues_prefix {α : Type} [Scalar α] {m n : Nat} (h : m ≤ n) (hue : α) :
    hues m hue <+: hues n hue := by
  induction m generalizing n hue with
  | zero => exact List.nil_prefix
  | succ m ih =>
    cases n with
    | zero => omega
    | succ n => exact (List.prefix_cons_inj hue).mpr (ih (by omega) _)

/-- Whole turns make no difference to the next hue. -/
theorem fract_add_step (x : Rat) : Scalar.fract (Int.fract x + step) = Int.fract (x + step) := by
  have hturns : Int.fract x + step - (x + step) = ((-⌊x⌋ : Int) : Rat) := by
    rw [Int.fract]
    push_cast
    ring
  exact Int.fract_eq_fract.mpr ⟨-⌊x⌋, hturns⟩

/-- **Each hue is told by the number of steps to it.** -/
theorem hues_eq (n : Nat) (x : Rat) : hues n (Int.fract x) = (List.range n).map (after x) := by
  induction n generalizing x with
  | zero => rfl
  | succ n ih =>
    have hfirst : after x 0 = Int.fract x := by rw [after, Nat.cast_zero, zero_mul, add_zero]
    have hlater : after x ∘ Nat.succ = after (x + step) := by
      funext i
      rw [Function.comp_apply, after, after]
      push_cast
      ring_nf
    rw [hues, fract_add_step, ih, List.range_succ_eq_map, List.map_cons, List.map_map, hfirst,
      hlater]

/-- One step leads to a hue that is nearer the other way round. -/
theorem distance_step {x : Rat} (h : 0 ≤ x) (h' : x < 1) :
    distance x (Int.fract (x + step)) = 1 - step := by
  have hstep : 1 / 2 < (step : Rat) ∧ (step : Rat) < 1 := by
    rw [step_rat]
    norm_num
  rcases lt_or_ge (x + step) 1 with hlt | hge
  · -- the step ends within the circle, and the way back is the shorter one
    have hfract : Int.fract (x + step) = x + step :=
      Int.fract_eq_self.mpr ⟨by linarith, hlt⟩
    have hgap : |x - (x + step)| = step := by
      rw [sub_add_cancel_left, abs_neg, abs_of_pos (by linarith)]
    rw [distance, hfract, hgap, min_eq_right (by linarith)]
  · -- the step goes past the end
    have hfract : Int.fract (x + step) = x + step - 1 :=
      Int.fract_eq_iff.mpr ⟨by linarith, by linarith, 1, by push_cast; ring⟩
    have hgap : |x - (x + step - 1)| = 1 - step := by
      rw [abs_of_pos (by linarith)]
      ring
    rw [distance, hfract, hgap, min_eq_left (by linarith)]

theorem isChain_hues (n : Nat) {hue : Rat} (h : 0 ≤ hue) (h' : hue < 1) :
    (hues n hue).IsChain fun x y => distance x y = 1 - step := by
  induction n generalizing hue with
  | zero => exact .nil
  | succ n ih =>
    cases n with
    | zero => exact .singleton hue
    | succ n =>
      have hnext := ih (Int.fract_nonneg (hue + step)) (Int.fract_lt_one (hue + step))
      exact List.isChain_cons_cons.mpr ⟨distance_step h h', hnext⟩

/-- Two numbers of steps lead to one hue only if they differ by a whole denominator. -/
theorem dvd_of_after_eq {x : Rat} {i j : Nat} (h : after x i = after x j) :
    (2 * 10 ^ 14 : Int) ∣ i - j := by
  obtain ⟨turns, hturns⟩ := Int.fract_eq_fract.mp h
  have hproduct : ((i : Int) - j) * 123606797749979 = turns * (2 * 10 ^ 14) := by
    rw [step_rat] at hturns
    have hcast : ((i : Rat) - j) * 123606797749979 = turns * (2 * 10 ^ 14) := by
      field_simp at hturns
      linarith
    exact_mod_cast hcast
  have hcoprime : IsCoprime (2 * 10 ^ 14 : Int) 123606797749979 :=
    Int.isCoprime_iff_gcd_eq_one.mpr (by decide +kernel)
  exact hcoprime.dvd_of_dvd_mul_right ⟨turns, by rw [hproduct, mul_comm]⟩

theorem nodup_hues {n : Nat} (hn : n ≤ 2 * 10 ^ 14) (x : Rat) : (hues n (Int.fract x)).Nodup := by
  rw [hues_eq]
  refine List.Nodup.map_on ?_ List.nodup_range
  intro i hi j hj h
  obtain ⟨k, hk⟩ := dvd_of_after_eq h
  rw [List.mem_range] at hi hj
  omega

/-! ## Colours -/

/-- The byte of a channel of a colour of the cycle, at a depth below the largest channel. -/
def level (depth : Rat) : UInt8 := Scalar.toByte ((0.95 - 0.95 * 0.5 * depth) * 255.0 + 0.5)

theorem level_antitone {x y : Rat} (h : x ≤ y) : level y ≤ level x := by
  apply Scalar.toByte_mono
  linarith

theorem get_colour {hue : Rat} (h : 0 ≤ hue) (h' : hue < 1) (p : Primary) :
    (colour hue).get p = level ((Channels.depthsOf hue).get p) := by
  have hchannels : (⟨hue, 0.5, 0.95⟩ : Hsv Rat).channels
      = .below 0.95 (0.95 * 0.5) (.depthsOf hue) :=
    Hsv.channels_of_pos (by norm_num) (Hsv.fits64_mul_six h h')
  rw [colour, Hsv.toRgb, hchannels, level, ← Channels.get_below]
  cases p <;> rfl

/-- **The largest byte and the smallest one are the same for all hues.** -/
theorem bytes_colour {hue : Rat} (h : 0 ≤ hue) (h' : hue < 1) :
    (colour hue).largest = 242 ∧ (colour hue).smallest = 121 := by
  have hfull := Channels.isFull_depthsOf hue
  have htop : level 0 = 242 := by decide +kernel
  have hbottom : level 1 = 121 := by decide +kernel
  obtain ⟨p, hp⟩ := hfull.top
  obtain ⟨q, hq⟩ := hfull.bottom
  constructor
  · -- every channel is between the two levels, and the extreme ones are reached
    rw [Rgb.largest_eq_get (p := p), get_colour h h', hp, htop]
    · rfl
    · intro r
      rw [get_colour h h', get_colour h h', hp]
      exact level_antitone (hfull.inUnit r).1
  · rw [Rgb.smallest_eq_get (p := q), get_colour h h', hq, hbottom]
    · rfl
    · intro r
      rw [get_colour h h', get_colour h h', hq]
      exact level_antitone (hfull.inUnit r).2

/-! ## The whole cycle -/

/-- The first hue is that of a byte colour. -/
theorem start_within (seed : Option String) (e : Entropy) :
    0 ≤ (start Rat seed e).1 ∧ (start Rat seed e).1 < 1 := by
  cases seed with
  | none => exact (Hsv.ofBytes_ofRgb (Rgb.draw Rat e).1).inUnit.hue
  | some seed => exact (Hsv.ofBytes_ofRgb (Rgb.ofSeed seed)).inUnit.hue

theorem drawHues_eq (n : Nat) (seed : Option String) (e : Entropy) :
    (drawHues Rat n seed e).1 = hues n (start Rat seed e).1 := rfl

theorem drawColours_eq (n : Nat) (seed : Option String) (e : Entropy) :
    (drawColours Rat n seed e).1 = (drawHues Rat n seed e).1.map colour := rfl

/--
**A cycle goes round the circle in equal steps.** In exact arithmetic let `first` be the hue that a
cycle starts from, that of a seed or of a drawn colour. The cycle has as many hues as are asked for.
All of them lie on the circle, and the one at place `i` is `first` plus `i` steps less the whole
turns. A shorter cycle from the same hue is the beginning of a longer one. Hues next to each other
are one step apart, by the shorter way, and no hue comes back in the first `10 ^ 14`. There is a
colour for each hue, and all colours have the same largest byte and the same smallest one, and so
the same saturation and value.
-/
theorem cycle_goes_round (n : Nat) (seed : Option String) (e : Entropy) :
    let first := (start Rat seed e).1
    let all := (drawHues Rat n seed e).1
    all.length = n ∧
    (∀ i, i < n → all[i]? = some (Int.fract (first + i * 0.618033988749895))) ∧
    (∀ hue ∈ all, 0 ≤ hue ∧ hue < 1) ∧
    (∀ m seed' e', m ≤ n → (start Rat seed' e').1 = first → (drawHues Rat m seed' e').1 <+: all) ∧
    (all.IsChain fun x y => distance x y = 1 - 0.618033988749895) ∧
    (n ≤ 10 ^ 14 → all.Nodup) ∧
    (drawColours Rat n seed e).1.length = n ∧
    ∀ c ∈ (drawColours Rat n seed e).1, c.largest = 242 ∧ c.smallest = 121 ∧
      (Hsv.ofRgb c : Hsv Rat).saturation = 1 / 2 ∧ (Hsv.ofRgb c : Hsv Rat).value = 242 / 255 := by
  intro first all
  obtain ⟨hlow, hhigh⟩ := start_within seed e
  have hfirst : Int.fract first = first := Int.fract_eq_self.mpr ⟨hlow, hhigh⟩
  have hall : all = (List.range n).map (after first) := by
    rw [← hues_eq, hfirst]
    exact drawHues_eq n seed e
  have hunit : ∀ hue ∈ all, 0 ≤ hue ∧ hue < 1 := by
    intro hue hmem
    rw [hall] at hmem
    obtain ⟨i, _, rfl⟩ := List.mem_map.mp hmem
    exact ⟨Int.fract_nonneg _, Int.fract_lt_one _⟩
  have hlength : all.length = n := by rw [hall, List.length_map, List.length_range]
  refine ⟨hlength, ?_, hunit, ?_, isChain_hues n hlow hhigh, ?_, ?_, ?_⟩
  · intro i hi
    rw [hall, List.getElem?_map, List.getElem?_range hi]
    rfl
  · intro m seed' e' hm hsame
    rw [drawHues_eq, hsame]
    exact hues_prefix hm first
  · -- a hue can come again only when the steps add up to whole turns
    intro hn
    have hnodup := nodup_hues (n := n) (by omega) first
    rwa [hfirst] at hnodup
  · rw [drawColours_eq, List.length_map, hlength]
  · intro c hc
    rw [drawColours_eq] at hc
    obtain ⟨hue, hmem, rfl⟩ := List.mem_map.mp hc
    obtain ⟨hlargest, hsmallest⟩ := bytes_colour (hunit hue hmem).1 (hunit hue hmem).2
    refine ⟨hlargest, hsmallest, ?_, ?_⟩
    · rw [Hsv.saturation_ofRgb, hlargest, hsmallest]
      norm_num
    · rw [Hsv.value_ofRgb, hlargest]
      norm_num

/-- Three hues from a seed, the second of which is past red. -/
theorem cycle_goes_round_of_abc :
    let e := Entropy.cycle []
    let all := (drawHues Rat 3 (some "abc") e).1
    all[1]? = some (169 / 354 + 0.618033988749895 - 1 : Rat) ∧ 3 ≤ 10 ^ 14 ∧ all.Nodup ∧
      (drawHues Rat 2 (some "abc") e).1 <+: all ∧
      ∀ c ∈ (drawColours Rat 3 (some "abc") e).1, c.largest = 242 ∧ c.smallest = 121 := by
  intro e all
  obtain ⟨_, hplace, _, hprefix, _, hnodup, _, hbytes⟩ := cycle_goes_round 3 (some "abc") e
  have hfirst : (start Rat (some "abc") e).1 = 169 / 354 := by decide +kernel
  have hfract : Int.fract ((169 / 354 : Rat) + (1 : Nat) * 0.618033988749895)
      = 169 / 354 + 0.618033988749895 - 1 :=
    Int.fract_eq_iff.mpr ⟨by norm_num, by norm_num, 1, by norm_num⟩
  have hn : 3 ≤ 10 ^ 14 := by norm_num
  refine ⟨?_, hn, hnodup hn, hprefix 2 _ e (by omega) rfl, ?_⟩
  · rw [← hfract, ← hfirst]
    exact hplace 1 (by omega)
  · intro c hc
    obtain ⟨hlargest, hsmallest, _⟩ := hbytes c hc
    exact ⟨hlargest, hsmallest⟩

end Highlight.Cycle
