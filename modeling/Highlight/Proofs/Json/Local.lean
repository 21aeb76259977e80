import Highlight.Json.Ignored
import Highlight.Proofs.Success

/-!
# Readers look no further than they take

A reader is `Local` if what it makes of a text depends only on the part it takes off: whatever else
comes after that part, it takes the same part off and makes the same of it. A text or a fixed word
ends of itself, so that anything may follow. A number ends where no character comes that it could
go on with, so that its reader is local among the texts that satisfy `Ends`.

Locality of a reader is put together from that of its parts. Passing over a number is local
because it succeeds where reading its parts does.
-/

namespace Highlight.Json

variable {α β : Type} {P Q : List Char → Prop}

/-- What starts with no character for which `p` holds. -/
def StartsNot (p : Char → Bool) (rest : List Char) : Prop := ∀ c, rest.head? = some c → p c = false

/-- Nothing that digits could go on with. -/
def NoDigit : List Char → Prop := StartsNot Char.isDigit

/-- Nothing that the digits before or after a point could go on with. -/
def NoFraction : List Char → Prop := StartsNot fun c => c.isDigit || c == '.'

/-- Nothing that a number could go on with. -/
def Ends : List Char → Prop := StartsNot fun c => c.isDigit || c == '.' || c == 'e' || c == 'E'

/-- Anything may follow. -/
def Anything : List Char → Prop := fun _ => True

/--
The reader takes `used` off and makes `x` of it, whatever follows, as long as `P` holds of that.
-/
def Takes (P : List Char → Prop) (reader : Reader α) (used : List Char) (x : α) : Prop :=
  ∀ rest, P rest → reader (used ++ rest) = .ok (x, rest)

/-- What the reader makes of a text does not depend on what it leaves of it. -/
def LocalAt (P : List Char → Prop) (reader : Reader α) (text : List Char) : Prop :=
  ∀ x rest, reader text = .ok (x, rest) → ∃ used, text = used ++ rest ∧ Takes P reader used x

/-- What the reader makes of any text does not depend on what it leaves of it. -/
def Local (P : List Char → Prop) (reader : Reader α) : Prop := ∀ text, LocalAt P reader text

theorem Local.mono {reader : Reader α} (h : Local P reader) (hPQ : ∀ rest, Q rest → P rest) :
    Local Q reader := by
  intro text x rest hread
  obtain ⟨used, htext, htakes⟩ := h text x rest hread
  exact ⟨used, htext, fun rest' hrest => htakes rest' (hPQ rest' hrest)⟩

theorem Local.weaken {reader : Reader α} (h : Local Anything reader) : Local P reader :=
  h.mono fun _ _ => trivial

/-- Two readers one after the other. -/
theorem Local.bind {first : Reader α} {next : α × List Char → Except Failure (β × List Char)}
    (hfirst : Local P first) (hnext : ∀ x, Local Q fun rest => next (x, rest))
    (hstart : ∀ x text y rest, next (x, text) = .ok (y, rest) → Q rest → P text) :
    Local Q fun text => first text >>= next := by
  intro text y rest hread
  obtain ⟨⟨x, text'⟩, hx, hy⟩ := exists_of_bind_ok hread
  obtain ⟨used, rfl, htakes⟩ := hfirst _ _ _ hx
  obtain ⟨used', rfl, htakes'⟩ := hnext x _ _ _ hy
  refine ⟨used ++ used', (List.append_assoc _ _ _).symm, ?_⟩
  intro rest' hrest'
  have hy' := htakes' rest' hrest'
  have hx' := htakes (used' ++ rest') (hstart x _ _ _ hy' hrest')
  dsimp only
  rw [List.append_assoc, hx']
  exact hy'

/-- A reader that makes something else of what was read, and does not read on. -/
theorem Local.finish {reader : Reader α} {make : α × List Char → Except Failure (β × List Char)}
    (h : Local P reader) (hmake : ∀ x rest y rest', make (x, rest) = .ok (y, rest') →
      rest' = rest ∧ ∀ rest'', make (x, rest'') = .ok (y, rest'')) :
    Local P fun text => reader text >>= make := by
  intro text y rest hread
  obtain ⟨⟨x, text'⟩, hx, hy⟩ := exists_of_bind_ok hread
  obtain ⟨rfl, hmade⟩ := hmake _ _ _ _ hy
  obtain ⟨used, rfl, htakes⟩ := h _ _ _ hx
  refine ⟨used, rfl, ?_⟩
  intro rest' hrest'
  dsimp only
  rw [htakes rest' hrest']
  exact hmade rest'

theorem Local.map {reader : Reader α} (h : Local P reader) (g : α → β) :
    Local P (fun text => do
      let (x, rest) ← reader text
      return (g x, rest)) := by
  refine h.finish ?_
  intro x rest y rest' hread
  obtain ⟨rfl, rfl⟩ := Prod.mk.inj (Except.ok.inj hread)
  exact ⟨rfl, fun _ => rfl⟩

/-! ## The front of a text -/

theorem isBlank_iff {c : Char} :
    isBlank c = true ↔ c = ' ' ∨ c = '\n' ∨ c = '\t' ∨ c = '\r' := by
  simp [isBlank, or_assoc]

theorem skipBlank_of_not_blank {c : Char} (h : isBlank c = false) (rest : List Char) :
    skipBlank (c :: rest) = c :: rest := by
  simp [skipBlank, h]

/-- Only blanks are skipped, whatever comes after them. -/
theorem exists_blanks {text rest : List Char} {c : Char} (h : skipBlank text = c :: rest) :
    ∃ blanks, text = blanks ++ c :: rest ∧
      ∀ rest', skipBlank (blanks ++ c :: rest') = c :: rest' := by
  refine ⟨text.takeWhile isBlank, ?_, ?_⟩
  · rw [← h, skipBlank, List.takeWhile_append_dropWhile]
  · intro rest'
    have hc : isBlank c = false := by
      have hhead := List.head?_dropWhile_not isBlank text
      rw [← skipBlank, h] at hhead
      exact hhead
    have hblanks : ∀ d ∈ text.takeWhile isBlank, isBlank d = true :=
      List.all_eq_true.mp (List.all_takeWhile)
    rw [skipBlank, List.dropWhile_append_of_pos hblanks]
    exact skipBlank_of_not_blank hc rest'

/-- A reader that skips blanks is as local as what it does after the character it finds. -/
theorem localAt_of_skipBlank {reader tail : Reader α} {text rest : List Char} {c : Char}
    (hc : skipBlank text = c :: rest)
    (hreader : ∀ text rest, skipBlank text = c :: rest → reader text = tail rest)
    (htail : Local P tail) : LocalAt P reader text := by
  intro x rest' hread
  rw [hreader text rest hc] at hread
  obtain ⟨used, rfl, htakes⟩ := htail _ _ _ hread
  obtain ⟨blanks, rfl, hblanks⟩ := exists_blanks hc
  refine ⟨blanks ++ c :: used, by simp, ?_⟩
  intro rest'' hrest''
  rw [List.append_assoc, List.cons_append, hreader _ _ (hblanks _)]
  exact htakes rest'' hrest''

/-- A reader that always takes something off is local on what follows a first character. -/
theorem Local.cons {reader : Reader α} (h : Local P reader) (hnil : ∀ x, ¬Takes P reader [] x)
    (c : Char) : Local P fun rest => reader (c :: rest) := by
  intro text x rest hread
  obtain ⟨used, htext, htakes⟩ := h _ _ _ hread
  cases used with
  | nil => exact absurd htakes (hnil x)
  | cons d used =>
    obtain ⟨rfl, rfl⟩ := List.cons.inj htext
    exact ⟨used, rfl, htakes⟩

/-- A reader that takes `start` off and leaves the rest to a local one. -/
theorem localAt_append {reader : Reader α} {reader' : Reader β} {text : List Char}
    (start : List Char) (g : α → β) (hreader : ∀ rest, reader' (start ++ rest) = (do
      let (x, rest) ← reader rest
      return (g x, rest)))
    (h : LocalAt P reader text) : LocalAt P reader' (start ++ text) := by
  intro x rest hread
  rw [hreader] at hread
  obtain ⟨⟨y, text'⟩, hy, hread⟩ := exists_of_bind_ok hread
  obtain ⟨rfl, rfl⟩ := Prod.mk.inj (Except.ok.inj hread)
  obtain ⟨used, rfl, htakes⟩ := h _ _ hy
  refine ⟨start ++ used, (List.append_assoc _ _ _).symm, ?_⟩
  intro rest' hrest'
  rw [List.append_assoc, hreader, htakes rest' hrest']
  rfl

/-! ## Texts -/

/-- No reader of texts takes a backslash for a plain character. -/
theorem ne_backslash {c : Char} {rest : List Char} (hlast : c = '\\' → rest = [] → False)
    (hescape : ∀ (e : Char) (rest' : List Char), c = '\\' → rest = e :: rest' → False) :
    c ≠ '\\' := by
  intro hc
  cases rest with
  | nil => exact hlast hc rfl
  | cons e rest => exact hescape e rest hc rfl

/-- A text ends at its own quote. -/
theorem local_stringBody : Local Anything stringBody := by
  intro text
  -- the reader reads on behind a pair of units, one unit, a short escape and a plain character
  fun_induction stringBody text with
  | case2 rest =>
    intro x rest' hread
    obtain ⟨rfl, rfl⟩ := Prod.mk.inj (Except.ok.inj hread)
    exact ⟨['"'], rfl, fun _ _ => rfl⟩
  | case6 a b c d unit hunit htrailing hleading a' b' c' d' rest unit' hunit' htrailing' ih =>
    refine localAt_append ['\\', 'u', a, b, c, d, '\\', 'u', a', b', c', d']
      (ofPair unit unit' :: ·) ?_ ih
    intro rest
    simp [stringBody, hunit, htrailing, hleading, hunit', htrailing']
  | case12 a b c d rest unit hunit htrailing hleading ih =>
    refine localAt_append ['\\', 'u', a, b, c, d] (Char.ofNat unit :: ·) ?_ ih
    intro rest
    simp [stringBody, hunit, htrailing, hleading]
  | case16 e rest _ hunit c hescape ih =>
    -- the characters of a short escape
    refine localAt_append ['\\', e] (c :: ·) ?_ ih
    intro rest
    change stringBody ('\\' :: e :: rest) = _
    rw [stringBody, hescape]
    · intro a b c d rest he
      exact (hunit he).elim
    · exact hunit
  | case18 c rest _ _ _ hlast hescape hc ih =>
    have hback := ne_backslash hlast hescape
    refine localAt_append [c] (c :: ·) ?_ ih
    intro rest
    simp [stringBody, hback, hc]
  | _ =>
    intro x rest' hread
    simp_all [stringBody]

theorem local_ignoreString : Local Anything ignoreString := by
  intro text
  fun_induction ignoreString text with
  | case2 rest =>
    intro x rest' hread
    obtain ⟨rfl, rfl⟩ := Prod.mk.inj (Except.ok.inj hread)
    exact ⟨['"'], rfl, fun _ _ => rfl⟩
  | case3 a b c d rest hunit ih =>
    refine localAt_append ['\\', 'u', a, b, c, d] id ?_ ih
    intro rest
    simp [ignoreString, hunit]
  | case7 e rest _ hunit hescape ih =>
    refine localAt_append ['\\', e] id ?_ ih
    intro rest
    change ignoreString ('\\' :: e :: rest) = _
    rw [ignoreString, if_pos hescape]
    · simp
    · intro a b c d rest he
      exact (hunit he).elim
    · exact hunit
  | case10 c rest _ _ _ hlast hescape hc ih =>
    have hback := ne_backslash hlast hescape
    refine localAt_append [c] id ?_ ih
    intro rest
    simp [ignoreString, hback, hc]
  | _ =>
    intro x rest' hread
    simp_all [ignoreString]

/-! ## Numbers -/

theorem startsNot_nil {p : Char → Bool} : StartsNot p [] := by
  intro c hc
  cases hc

theorem startsNot_cons {p : Char → Bool} {c : Char} {rest : List Char} :
    StartsNot p (c :: rest) ↔ p c = false := by
  simp [StartsNot]

theorem Ends.noFraction {rest : List Char} (h : Ends rest) : NoFraction rest := by
  intro c hc
  have := h c hc
  simp_all

theorem NoFraction.noDigit {rest : List Char} (h : NoFraction rest) : NoDigit rest := by
  intro c hc
  have := h c hc
  simp_all

theorem digits_of_noDigit {rest : List Char} (h : NoDigit rest) : digits rest = ([], rest) := by
  cases rest with
  | nil => rfl
  | cons c rest =>
    have hc : c.isDigit = false := startsNot_cons.mp h
    rw [digits, if_neg (by rw [hc]; decide)]

theorem local_digits : Local NoDigit fun text => .ok (digits text) := by
  intro text
  induction text with
  | nil =>
    intro ds rest hread
    obtain ⟨rfl, rfl⟩ := Prod.mk.inj (Except.ok.inj hread)
    exact ⟨[], rfl, fun rest' hrest' => congrArg Except.ok (digits_of_noDigit hrest')⟩
  | cons c text ih =>
    by_cases hc : c.isDigit
    · -- a digit is followed by the digits of the rest
      refine localAt_append [c] ((c.toNat - '0'.toNat) :: ·) ?_ ih
      intro rest
      change Except.ok (digits (c :: rest)) = _
      rw [digits, if_pos hc]
      rfl
    · -- the digits end in front of the character
      intro ds rest hread
      dsimp only at hread
      rw [digits, if_neg hc] at hread
      obtain ⟨rfl, rfl⟩ := Prod.mk.inj (Except.ok.inj hread)
      exact ⟨[], rfl, fun rest' hrest' => congrArg Except.ok (digits_of_noDigit hrest')⟩

theorem someDigits_eq_ok_iff {text rest : List Char} {ds : List Nat} :
    someDigits text = .ok (ds, rest) ↔ digits text = (ds, rest) ∧ ds ≠ [] := by
  unfold someDigits
  rcases digits text with ⟨_ | ⟨d, ds'⟩, _ | ⟨c, rest'⟩⟩ <;> grind

theorem wholeDigits_eq_ok_iff {text rest : List Char} {ds : List Nat} :
    wholeDigits text = .ok (ds, rest) ↔
      digits text = (ds, rest) ∧ ds ≠ [] ∧ ∀ d ds', ds ≠ 0 :: d :: ds' := by
  rw [← and_assoc, ← someDigits_eq_ok_iff]
  unfold wholeDigits
  rcases someDigits text with e | ⟨_ | ⟨_ | d, _ | ⟨d', ds'⟩⟩, rest'⟩ <;>
    simp [Bind.bind, Except.bind, pure, Except.pure] <;> grind

theorem local_someDigits : Local NoDigit someDigits := by
  intro text ds rest hread
  obtain ⟨hdigits, hne⟩ := someDigits_eq_ok_iff.mp hread
  obtain ⟨used, htext, htakes⟩ := local_digits text _ rest (congrArg Except.ok hdigits)
  refine ⟨used, htext, ?_⟩
  intro rest' hrest'
  exact someDigits_eq_ok_iff.mpr ⟨Except.ok.inj (htakes rest' hrest'), hne⟩

theorem not_takes_someDigits_nil (ds : List Nat) : ¬Takes NoDigit someDigits [] ds := by
  intro htakes
  cases htakes [] startsNot_nil

theorem local_wholeDigits : Local NoDigit wholeDigits := by
  intro text ds rest hread
  obtain ⟨hdigits, hne⟩ := wholeDigits_eq_ok_iff.mp hread
  obtain ⟨used, htext, htakes⟩ := local_digits text _ rest (congrArg Except.ok hdigits)
  refine ⟨used, htext, ?_⟩
  intro rest' hrest'
  exact wholeDigits_eq_ok_iff.mpr ⟨Except.ok.inj (htakes rest' hrest'), hne⟩

theorem fractionDigits_of_noFraction {rest : List Char} (h : NoFraction rest) :
    fractionDigits rest = .ok (none, rest) := by
  unfold fractionDigits
  split
  · have hpoint := startsNot_cons.mp h
    simp at hpoint
  · rfl

/-- There is a point, or nothing is taken off. -/
theorem fractionDigits_cases {text rest : List Char} {fraction : Option (List Nat)}
    (h : fractionDigits text = .ok (fraction, rest)) :
    (∃ text', text = '.' :: text') ∨ (fraction = none ∧ rest = text) := by
  unfold fractionDigits at h
  split at h
  · exact Or.inl ⟨_, rfl⟩
  · obtain ⟨rfl, rfl⟩ := Prod.mk.inj (Except.ok.inj h)
    exact Or.inr ⟨rfl, rfl⟩

theorem local_fractionDigits : Local NoFraction fractionDigits := by
  intro text fraction rest hread
  rcases fractionDigits_cases hread with ⟨text, rfl⟩ | ⟨rfl, rfl⟩
  · have hdigits : LocalAt NoFraction someDigits text :=
      local_someDigits.mono (fun _ => NoFraction.noDigit) text
    exact localAt_append ['.'] some (fun _ => rfl) hdigits _ _ hread
  · exact ⟨[], rfl, fun rest' hrest' => fractionDigits_of_noFraction hrest'⟩

theorem noDigit_of_fractionDigits {text rest : List Char} {fraction : Option (List Nat)}
    (h : fractionDigits text = .ok (fraction, rest)) (hrest : NoFraction rest) : NoDigit text := by
  rcases fractionDigits_cases h with ⟨text, rfl⟩ | ⟨rfl, rfl⟩
  · exact startsNot_cons.mpr (by decide)
  · exact hrest.noDigit

theorem exponent_of_ends {rest : List Char} (h : Ends rest) : exponent rest = .ok (none, rest) := by
  unfold exponent
  split
  · next c rest =>
    have hc := startsNot_cons.mp h
    rw [if_neg (by simp_all)]
  · rfl

/-- There is a power of ten, or nothing is taken off. -/
theorem exponent_cases {text rest : List Char} {power : Option Int}
    (h : exponent text = .ok (power, rest)) :
    (∃ c text', (c = 'e' ∨ c = 'E') ∧ text = c :: text') ∨ (power = none ∧ rest = text) := by
  unfold exponent at h
  split at h
  · split at h
    · next hc => exact Or.inl ⟨_, _, hc, rfl⟩
    · obtain ⟨rfl, rfl⟩ := Prod.mk.inj (Except.ok.inj h)
      exact Or.inr ⟨rfl, rfl⟩
  · obtain ⟨rfl, rfl⟩ := Prod.mk.inj (Except.ok.inj h)
    exact Or.inr ⟨rfl, rfl⟩

/-- After its letter, a power of ten is local because digits must follow. -/
theorem localAt_exponent_cons {c : Char} (hc : c = 'e' ∨ c = 'E') (text : List Char) :
    LocalAt Ends exponent (c :: text) := by
  have hdigits : Local Ends someDigits := local_someDigits.mono fun _ h => h.noFraction.noDigit
  rcases text with _ | ⟨d, text⟩
  · -- an exponent without a digit is cut short
    intro power rest hread
    have herror : exponent [c] = .error .cutShort := by
      rcases hc with rfl | rfl
      · rfl
      · rfl
    rw [herror] at hread
    cases hread
  · -- a sign, the other sign, or the first digit
    by_cases hminus : d = '-'
    · subst hminus
      refine localAt_append [c, '-'] (fun ds => some (-(digitsValue ds : Int))) ?_ (hdigits text)
      intro rest
      simp [exponent, hc]
    · by_cases hplus : d = '+'
      · subst hplus
        refine localAt_append [c, '+'] (fun ds => some (digitsValue ds : Int)) ?_ (hdigits text)
        intro rest
        simp [exponent, hc]
      · have hrest : LocalAt Ends (fun rest => someDigits (d :: rest)) text :=
          (local_someDigits.cons not_takes_someDigits_nil d).mono
            (fun _ h => h.noFraction.noDigit) text
        refine localAt_append [c, d] (fun ds => some (digitsValue ds : Int)) ?_ hrest
        intro rest
        simp [exponent, hc, hminus, hplus]

theorem local_exponent : Local Ends exponent := by
  intro text power rest hread
  rcases exponent_cases hread with ⟨c, text, hc, rfl⟩ | ⟨rfl, rfl⟩
  · exact localAt_exponent_cons hc text _ _ hread
  · exact ⟨[], rfl, fun rest' hrest' => exponent_of_ends hrest'⟩

theorem noFraction_of_exponent {text rest : List Char} {power : Option Int}
    (h : exponent text = .ok (power, rest)) (hrest : Ends rest) : NoFraction text := by
  rcases exponent_cases h with ⟨c, text, rfl | rfl, rfl⟩ | ⟨rfl, rfl⟩
  · exact startsNot_cons.mpr (by decide)
  · exact startsNot_cons.mpr (by decide)
  · exact hrest.noFraction

/-- The parts of a number after its minus sign, if it has one. -/
def numberParts : Reader (List Nat × Option (List Nat) × Option Int) := fun text => do
  let (whole, rest) ← wholeDigits text
  let (fraction, rest) ← fractionDigits rest
  let (power, rest) ← exponent rest
  return ((whole, fraction, power), rest)

theorem local_numberParts : Local Ends numberParts := by
  refine Local.bind (P := NoDigit) local_wholeDigits (fun whole => ?_) ?_
  · refine Local.bind (P := NoFraction) local_fractionDigits (fun fraction => ?_) ?_
    · exact local_exponent.map fun power => (whole, fraction, power)
    · intro fraction text parts rest hread hrest
      obtain ⟨⟨power, text'⟩, hpower, hread⟩ := exists_of_bind_ok hread
      obtain ⟨_, rfl⟩ := Prod.mk.inj (Except.ok.inj hread)
      exact noFraction_of_exponent hpower hrest
  · intro whole text parts rest hread hrest
    obtain ⟨⟨fraction, text'⟩, hfraction, hread⟩ := exists_of_bind_ok hread
    obtain ⟨⟨power, text''⟩, hpower, hread⟩ := exists_of_bind_ok hread
    obtain ⟨_, rfl⟩ := Prod.mk.inj (Except.ok.inj hread)
    exact noDigit_of_fractionDigits hfraction (noFraction_of_exponent hpower hrest)

/-- The number that the parts stand for, and what comes after them. -/
def ofParts (negative : Bool) :
    (List Nat × Option (List Nat) × Option Int) × List Char → Except Failure (Number × List Char)
  | ((whole, fraction, power), rest) =>
    match integer? negative whole, fraction, power with
    | some n, none, none => .ok (.integer n, rest)
    | _, _, _ =>
      match (Decimal.Scaled.ofDigits whole (fraction.getD []) (power.getD 0)).toFloat? with
      | none => .error .illFormed
      | some x => .ok (.real (if negative then -x else x), rest)

theorem unsigned_eq (negative : Bool) :
    unsigned negative = fun text => numberParts text >>= ofParts negative := by
  funext text
  unfold unsigned numberParts
  simp only [bind_assoc, pure_bind]
  rfl

/-- **A number is read up to where it ends.** -/
theorem local_unsigned (negative : Bool) : Local Ends (unsigned negative) := by
  rw [unsigned_eq]
  -- which number it is depends on the parts alone
  refine local_numberParts.finish ?_
  rintro ⟨whole, fraction, power⟩ rest n rest' hread
  unfold ofParts at hread ⊢
  dsimp only at hread ⊢
  split at hread
  · obtain ⟨rfl, rfl⟩ := Prod.mk.inj (Except.ok.inj hread)
    refine ⟨rfl, ?_⟩
    simp [*]
  · split at hread
    · cases hread
    · obtain ⟨rfl, rfl⟩ := Prod.mk.inj (Except.ok.inj hread)
      refine ⟨rfl, ?_⟩
      simp [*]

/-! ## Numbers that are passed over -/

theorem ignoreDigits_eq_ok_iff {text rest : List Char} :
    ignoreDigits text = .ok ((), rest) ↔ ∃ ds, someDigits text = .ok (ds, rest) := by
  unfold ignoreDigits someDigits
  rcases digits text with ⟨_ | ⟨d, ds⟩, _ | ⟨c, rest'⟩⟩ <;> simp

/-- What is made of what was read does not matter to where the reader stops. -/
theorem exists_map_eq_ok_iff {r : Except Failure (α × List Char)} {g : α × List Char → β}
    {rest : List Char} :
    (∃ y, (fun x => (g x, x.2)) <$> r = .ok (y, rest)) ↔ ∃ x, r = .ok (x, rest) := by
  rcases r with e | ⟨x, rest'⟩
  · simp [Functor.map, Except.map]
  · simp [Functor.map, Except.map]

theorem ignoreExponent_eq_ok_iff {text rest : List Char} :
    ignoreExponent text = .ok ((), rest) ↔ ∃ power, exponent text = .ok (power, rest) := by
  rcases text with _ | ⟨c, text⟩
  · simp [ignoreExponent, exponent]
  by_cases hc : c = 'e' ∨ c = 'E'
  · rcases text with _ | ⟨d, text⟩
    · simp [ignoreExponent, exponent, hc, ignoreDigits_eq_ok_iff, exists_map_eq_ok_iff]
    by_cases hminus : d = '-'
    · simp [ignoreExponent, exponent, hc, hminus, ignoreDigits_eq_ok_iff, exists_map_eq_ok_iff]
    by_cases hplus : d = '+'
    · simp [ignoreExponent, exponent, hc, hplus, ignoreDigits_eq_ok_iff, exists_map_eq_ok_iff]
    · simp [ignoreExponent, exponent, hc, hminus, hplus, ignoreDigits_eq_ok_iff,
        exists_map_eq_ok_iff]
  · simp [ignoreExponent, exponent, hc]

theorem numberParts_eq_ok_iff {text rest : List Char} {whole : List Nat}
    {fraction : Option (List Nat)} {power : Option Int} :
    numberParts text = .ok ((whole, fraction, power), rest) ↔
      ∃ text' text'', wholeDigits text = .ok (whole, text') ∧
        fractionDigits text' = .ok (fraction, text'') ∧ exponent text'' = .ok (power, rest) := by
  constructor
  · intro hread
    obtain ⟨⟨_, text'⟩, hwhole, hread⟩ := exists_of_bind_ok hread
    obtain ⟨⟨_, text''⟩, hfraction, hread⟩ := exists_of_bind_ok hread
    obtain ⟨⟨_, rest'⟩, hpower, hread⟩ := exists_of_bind_ok hread
    cases hread
    exact ⟨text', text'', hwhole, hfraction, hpower⟩
  · rintro ⟨text', text'', hwhole, hfraction, hpower⟩
    exact bind_ok hwhole (bind_ok hfraction (bind_ok hpower rfl))

/-- A number is passed over where its parts can be read. -/
theorem ignoreNumber_eq_ok_iff {text rest : List Char} :
    ignoreNumber text = .ok ((), rest) ↔ ∃ parts, numberParts text = .ok (parts, rest) := by
  constructor
  · intro hread
    unfold ignoreNumber at hread
    split at hread
    · cases hread
    · cases hread
    · next whole text' hnil hzero hdigits =>
      -- a point and digits follow the whole part
      have hwhole := wholeDigits_eq_ok_iff.mpr ⟨hdigits, hnil, hzero⟩
      obtain ⟨⟨⟨⟩, text''⟩, hfraction, hpower⟩ := exists_of_bind_ok hread
      obtain ⟨fraction, hfraction⟩ := ignoreDigits_eq_ok_iff.mp hfraction
      obtain ⟨power, hpower⟩ := ignoreExponent_eq_ok_iff.mp hpower
      exact ⟨_, numberParts_eq_ok_iff.mpr ⟨_, _, hwhole, bind_ok hfraction rfl, hpower⟩⟩
    · next whole text' hnil hzero hpoint hdigits =>
      have hwhole := wholeDigits_eq_ok_iff.mpr ⟨hdigits, hnil, hzero⟩
      obtain ⟨power, hpower⟩ := ignoreExponent_eq_ok_iff.mp hread
      -- what is not passed over as a fraction is read as no fraction
      have hfraction : fractionDigits text' = .ok (none, text') := by
        rw [fractionDigits]
        exact hpoint
      exact ⟨_, numberParts_eq_ok_iff.mpr ⟨_, _, hwhole, hfraction, hpower⟩⟩
  · -- both readers take the parts one by one
    rintro ⟨⟨whole, fraction, power⟩, hread⟩
    obtain ⟨text', text'', hwhole, hfraction, hpower⟩ := numberParts_eq_ok_iff.mp hread
    obtain ⟨hdigits, hnil, hzero⟩ := wholeDigits_eq_ok_iff.mp hwhole
    have hpower := ignoreExponent_eq_ok_iff.mpr ⟨_, hpower⟩
    unfold ignoreNumber
    rw [hdigits]
    split
    · next h => exact absurd (Prod.mk.inj h).1 hnil
    · next h => exact absurd (Prod.mk.inj h).1 (hzero _ _)
    · next h =>
      obtain ⟨rfl, rfl⟩ := Prod.mk.inj h
      obtain ⟨⟨ds, _⟩, hfraction, hrest⟩ := exists_of_bind_ok hfraction
      cases hrest
      exact bind_ok (ignoreDigits_eq_ok_iff.mpr ⟨ds, hfraction⟩) hpower
    · next hpoint h =>
      obtain ⟨rfl, rfl⟩ := Prod.mk.inj h
      rcases fractionDigits_cases hfraction with ⟨text', rfl⟩ | ⟨rfl, rfl⟩
      · exact (hpoint text' rfl).elim
      · exact hpower

theorem local_ignoreNumber : Local Ends ignoreNumber := by
  intro text _ rest hread
  obtain ⟨parts, hparts⟩ := ignoreNumber_eq_ok_iff.mp hread
  obtain ⟨used, htext, htakes⟩ := local_numberParts _ _ _ hparts
  refine ⟨used, htext, ?_⟩
  intro rest' hrest'
  exact ignoreNumber_eq_ok_iff.mpr ⟨parts, htakes rest' hrest'⟩

/-! ## Words -/

theorem word_eq_ok_iff {text rest letters : List Char} :
    word text letters = .ok rest ↔ text = letters ++ rest := by
  induction letters generalizing text with
  | nil => simp [word]
  | cons d letters ih =>
    cases text with
    | nil => simp [word]
    | cons c text =>
      by_cases hc : c = d
      · simp [word, hc, ih]
      · simp [word, hc]

theorem local_word (x : α) (letters : List Char) :
    Local Anything fun text => do return (x, ← word text letters) := by
  intro text y rest hread
  obtain ⟨rest', hword, hread⟩ := exists_of_bind_ok hread
  obtain ⟨rfl, rfl⟩ := Prod.mk.inj (Except.ok.inj hread)
  refine ⟨letters, word_eq_ok_iff.mp hword, ?_⟩
  intro rest'' _
  exact bind_ok (word_eq_ok_iff.mpr rfl) rfl

end Highlight.Json
