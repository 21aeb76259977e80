import Highlight.Proofs.Json.Value

/-!
# What is read could have been passed over

To pass over a document only its form is looked at. So wherever a reader takes a document off,
whatever it makes of it, passing over takes the same off: the reader is `Formed`. That is what makes
the members of an object a matter of its text alone, and not of what they are read for.
-/

namespace Highlight.Json

variable {α σ : Type} {text inner rest : List Char}

/-- Whatever the reader takes off has the form of a document. -/
def Formed (reader : Reader α) : Prop :=
  ∀ text x rest, reader text = .ok (x, rest) → ignored text = .ok ((), rest)

theorem ignored_of_ignoreValue (depth : Nat) (h : ignoreValue depth text = .ok ((), rest)) :
    ignored text = .ok ((), rest) := ignoreValue_of_length_le h (Nat.le_refl _)

/-! ## Documents that hold no others -/

/-- An escape that stands for something is passed over, one or two code units at a time. -/
theorem ignoreString_of_stringBody {s : List Char} (h : stringBody text = .ok (s, rest)) :
    ignoreString text = .ok ((), rest) := by
  fun_induction stringBody text generalizing s with
  | case2 text =>
    cases h
    rfl
  | case6 a b c d unit hunit htrailing hleading a' b' c' d' text unit' hunit' htrailing' ih =>
    obtain ⟨⟨s', _⟩, hs, h⟩ := exists_of_bind_ok h
    cases h
    simp [ignoreString, hunit, hunit', ih hs]
  | case12 a b c d text unit hunit htrailing hleading ih =>
    obtain ⟨⟨s', _⟩, hs, h⟩ := exists_of_bind_ok h
    cases h
    simp [ignoreString, hunit, ih hs]
  | case16 e text hlast hunit c hescape ih =>
    obtain ⟨⟨s', _⟩, hs, h⟩ := exists_of_bind_ok h
    cases h
    rw [ignoreString, if_pos (by simp [hescape])]
    · exact ih hs
    · -- the escape is no unit of four digits
      intro a b c d text he
      exact (hunit he).elim
    · exact hunit
  | case18 c text _ _ _ hlast hescape hc ih =>
    obtain ⟨⟨s', _⟩, hs, h⟩ := exists_of_bind_ok h
    cases h
    simp [ignoreString, hc, ih hs]
  | _ => cases h

theorem ignored_of_string {s : List Char} (hc : skipBlank text = '"' :: inner)
    (h : stringBody inner = .ok (s, rest)) : ignored text = .ok ((), rest) := by
  apply ignored_of_ignoreValue 0
  rw [ignoreValue, hc]
  exact ignoreString_of_stringBody h

/-- The three fixed words, by their first letters. -/
theorem ignored_of_word {c : Char} {letters : List Char} (hc : skipBlank text = c :: inner)
    (hletters : (c, letters) ∈ [('n', ['u', 'l', 'l']), ('t', ['r', 'u', 'e']),
      ('f', ['a', 'l', 's', 'e'])]) (h : word inner letters = .ok rest) :
    ignored text = .ok ((), rest) := by
  apply ignored_of_ignoreValue 0
  rw [ignoreValue, hc]
  simp only [List.mem_cons, Prod.mk.injEq, List.not_mem_nil, or_false] at hletters
  rcases hletters with ⟨rfl, rfl⟩ | ⟨rfl, rfl⟩ | ⟨rfl, rfl⟩
  · exact bind_ok h rfl
  · exact bind_ok h rfl
  · exact bind_ok h rfl

theorem ignoreNumber_of_unsigned {negative : Bool} {n : Number}
    (h : unsigned negative text = .ok (n, rest)) : ignoreNumber text = .ok ((), rest) := by
  rw [unsigned_eq] at h
  obtain ⟨⟨⟨whole, fraction, power⟩, rest'⟩, hparts, h⟩ := exists_of_bind_ok h
  refine ignoreNumber_eq_ok_iff.mpr ⟨(whole, fraction, power), ?_⟩
  -- which number it is does not matter to where it ends
  unfold ofParts at h
  dsimp only at h
  split at h
  · cases h
    exact hparts
  · split at h
    · cases h
    · cases h
      exact hparts

/-! ## Documents that hold others -/

/-- Items that are documents have the form of documents. -/
theorem Items.formed {item : Reader α} {xs : List α} (hitem : Formed item)
    (h : Items item text xs rest) : Items ignored text (xs.map fun _ => ()) rest := by
  induction h with
  | last hx hclose => exact .last (hitem _ _ _ hx) hclose
  | more hx hcomma hc hne _ ih => exact .more (hitem _ _ _ hx) hcomma hc hne ih

theorem ignored_of_items {item : Reader α} {xs : List α} (hlocal : Local Ends item)
    (hitem : Formed item) (hc : skipBlank text = '[' :: inner)
    (h : items item inner = .ok (xs, rest)) : ignored text = .ok ((), rest) := by
  have hitems : items ignored inner = .ok (xs.map fun _ => (), rest) := by
    rw [items_eq_ok_iff local_ignored]
    rcases (items_eq_ok_iff hlocal).mp h with ⟨hclose, rfl⟩ | ⟨c, inner', hfirst, hne, hitems⟩
    · exact .inl ⟨hclose, rfl⟩
    · exact .inr ⟨c, inner', hfirst, hne, hitems.formed hitem⟩
  have hdepth : items (ignoreValue inner.length) inner = .ok (xs.map fun _ => (), rest) :=
    items_congr local_ignored (local_ignoreValue _) hitems
      fun _ _ _ hlength hread => ignoreValue_of_length_le hread hlength
  apply ignored_of_ignoreValue (inner.length + 1)
  rw [ignoreValue, hc]
  exact bind_ok hdepth rfl

/-- Each step of a loop takes off a name, a colon and what has the form of a document. -/
def FormedStep (step : σ → Reader σ) : Prop :=
  ∀ s text s' rest, step s text = .ok (s', rest) →
    ignoredMember ignored () text = .ok ((), rest)

theorem Series.formed {step : σ → Reader σ} {s s' : σ} (hstep : FormedStep step)
    (h : Series step s text s' rest) : Series (ignoredMember ignored) () text () rest := by
  induction h with
  | last hs hclose => exact .last (hstep _ _ _ _ hs) hclose
  | more hs hcomma hquote _ ih => exact .more (hstep _ _ _ _ hs) hcomma hquote ih

theorem ignored_of_series {step : σ → Reader σ} {s s' : σ} (hlocal : ∀ s, Local Ends (step s))
    (hstep : FormedStep step) (hc : skipBlank text = '{' :: inner)
    (h : series step s inner = .ok (s', rest)) : ignored text = .ok ((), rest) := by
  -- the entries are passed over one by one, by a reader without a bound
  have hseries : series (ignoredMember ignored) () inner = .ok ((), rest) := by
    rw [series_eq_ok_iff (local_ignoredMember local_ignored)]
    rcases (series_eq_ok_iff hlocal).mp h with ⟨hclose, _⟩ | ⟨inner', hquote, hseries⟩
    · exact .inl ⟨hclose, rfl⟩
    · exact .inr ⟨inner', hquote, hseries.formed hstep⟩
  -- what stands in the braces is no deeper than it is long
  have hdepth : series (ignoredMember (ignoreValue inner.length)) () inner = .ok ((), rest) := by
    refine series_congr (local_ignoredMember local_ignored)
      (local_ignoredMember (local_ignoreValue _)) hseries ?_
    intro _ t _ r hlength hread
    refine ignoredMember_congr hread fun t' r' hlength' hvalue => ?_
    exact ignoreValue_of_length_le hvalue (Nat.le_trans hlength' hlength)
  apply ignored_of_ignoreValue (inner.length + 1)
  rw [ignoreValue, hc]
  dsimp only
  rw [ignoreMembers_eq]
  exact hdepth

/-- What is read after the colon of a member has the form of a document. -/
def FormedEntry (entry : σ → String → Reader σ) : Prop :=
  ∀ s name text s' rest, entry s name text = .ok (s', rest) →
    afterColon ignored text = .ok ((), rest)

theorem FormedEntry.named {entry : σ → String → Reader σ} (h : FormedEntry entry) :
    FormedStep (named entry) := by
  intro s text s' rest hread
  obtain ⟨⟨name, text'⟩, hname, hread⟩ := exists_of_bind_ok hread
  exact bind_ok (ignoreString_of_stringBody hname) (h _ _ _ _ _ hread)

theorem Formed.afterColon {reader : Reader α} (h : Formed reader) {x : α}
    (hread : afterColon reader text = .ok (x, rest)) :
    Json.afterColon ignored text = .ok ((), rest) := by
  obtain ⟨text', hcolon, hread⟩ := afterColon_eq_ok_iff.mp hread
  exact afterColon_eq_ok_iff.mpr ⟨text', hcolon, h _ _ _ hread⟩

/-! ## Documents -/

theorem formedEntry_put {depth : Nat} (h : Formed (value depth)) :
    FormedEntry fun (t : Table Json) name => Json.afterColon fun text => do
      let (v, rest) ← value depth text
      return (t.put name v, rest) := by
  intro t name text t' rest hread
  obtain ⟨text', hcolon, hread⟩ := afterColon_eq_ok_iff.mp hread
  obtain ⟨⟨v, _⟩, hv, hread⟩ := exists_of_bind_ok hread
  cases hread
  exact afterColon_eq_ok_iff.mpr ⟨text', hcolon, h _ _ _ hv⟩

theorem formed_value_of_inner (depth : Nat)
    (hinner : ∀ inner, depth = inner + 1 → Formed (value inner)) : Formed (value depth) := by
  intro text x rest hread
  rw [value] at hread
  split at hread
  · cases hread
  · next hc =>
    obtain ⟨_, hword, hread⟩ := exists_of_bind_ok hread
    cases hread
    exact ignored_of_word hc (by simp) hword
  · next hc =>
    -- a word has to be passed over as itself
    obtain ⟨_, hword, hread⟩ := exists_of_bind_ok hread
    cases hread
    exact ignored_of_word hc (by simp) hword
  · next hc =>
    obtain ⟨_, hword, hread⟩ := exists_of_bind_ok hread
    cases hread
    exact ignored_of_word hc (by simp) hword
  · next hc =>
    obtain ⟨⟨s, _⟩, hs, hread⟩ := exists_of_bind_ok hread
    cases hread
    exact ignored_of_string hc hs
  · next hc =>
    cases depth with
    | zero => cases hread
    | succ depth =>
      obtain ⟨⟨xs, _⟩, hitems, hread⟩ := exists_of_bind_ok hread
      cases hread
      exact ignored_of_items (local_value depth) (hinner depth rfl) hc hitems
  · next hc =>
    cases depth with
    | zero => cases hread
    | succ depth =>
      obtain ⟨⟨ms, _⟩, hmembers, hread⟩ := exists_of_bind_ok hread
      cases hread
      -- a member is put to those before it, which tells nothing of its form
      rw [members_eq] at hmembers
      exact ignored_of_series (local_named fun t name =>
        local_afterColon ((local_value depth).map (Table.put t name)))
        (formedEntry_put (hinner depth rfl)).named hc hmembers
  · next hc =>
    obtain ⟨⟨n, _⟩, hn, hread⟩ := exists_of_bind_ok hread
    cases hread
    -- a number holds no value that could be nested
    apply ignored_of_ignoreValue 0
    rw [ignoreValue, hc]
    exact ignoreNumber_of_unsigned hn
  · next hc =>
    split at hread
    · next hdigit =>
      obtain ⟨⟨n, _⟩, hn, hread⟩ := exists_of_bind_ok hread
      cases hread
      apply ignored_of_ignoreValue 0
      simpa [ignoreValue, hc, hdigit] using ignoreNumber_of_unsigned hn
    · cases hread

/-- **A document that is read could have been passed over.** -/
theorem formed_value (depth : Nat) : Formed (value depth) := by
  induction depth with
  | zero => exact formed_value_of_inner 0 (fun _ h => nomatch h)
  | succ depth ih =>
    refine formed_value_of_inner (depth + 1) ?_
    intro inner hinner
    obtain rfl := Nat.succ.inj hinner
    exact ih

/-! ## Members in a text -/

/-- The text is a member of an object: a name, a colon and a document, with blanks around. -/
def IsMember (piece : List Char) : Prop :=
  ∃ inner after, skipBlank piece = '"' :: inner ∧
    ignoredMember ignored () inner = .ok ((), after) ∧ skipBlank after = []

/-- The text is the pieces in braces, with commas between them and blanks around. -/
def Assembles (pieces : List (List Char)) (text : List Char) : Prop :=
  ∃ lead gap trail, skipBlank lead = [] ∧ skipBlank gap = [] ∧ skipBlank trail = [] ∧
    text = lead ++ '{' :: (gap ++ ([','].intercalate pieces ++ '}' :: trail))

theorem ends_of_blank (h : skipBlank text = []) : Ends text := by
  cases text with
  | nil => exact startsNot_nil
  | cons c text =>
    by_cases hc : isBlank c
    · rcases isBlank_iff.mp hc with rfl | rfl | rfl | rfl <;> exact startsNot_cons.mpr (by decide)
    · rw [skipBlank_of_not_blank (by simpa using hc)] at h
      cases h

theorem exists_blanks_append {c : Char} (h : skipBlank text = c :: rest) :
    ∃ blanks, skipBlank blanks = [] ∧ text = blanks ++ c :: rest := by
  refine ⟨text.takeWhile isBlank, ?_, ?_⟩
  · have hblanks : ∀ c ∈ text.takeWhile isBlank, isBlank c = true :=
      List.all_eq_true.mp List.all_takeWhile
    rw [skipBlank, ← List.append_nil (text.takeWhile isBlank),
      List.dropWhile_append_of_pos hblanks]
    rfl
  · rw [← h, skipBlank, List.takeWhile_append_dropWhile]

/-- What comes after the text does not matter where its first character is found. -/
theorem skipBlank_append_of_cons {c : Char} (h : skipBlank text = c :: rest) (more : List Char) :
    skipBlank (text ++ more) = c :: (rest ++ more) := by
  obtain ⟨blanks, rfl, hblanks⟩ := exists_blanks h
  rw [List.append_assoc, List.cons_append]
  exact hblanks (rest ++ more)

/-- A member that was passed over up to what comes after it is a member on its own. -/
theorem exists_piece {lead : List Char} {c : Char} (hlead : skipBlank lead = [])
    {mid : List Char} (hread : ignoredMember ignored () text = .ok ((), mid))
    (hc : skipBlank mid = c :: rest) :
    ∃ piece, IsMember piece ∧ lead ++ '"' :: text = piece ++ c :: rest := by
  obtain ⟨used, rfl, htakes⟩ := local_ignoredMember local_ignored () _ _ _ hread
  obtain ⟨after, hafter, rfl⟩ := exists_blanks_append hc
  refine ⟨lead ++ '"' :: (used ++ after), ?_, by simp⟩
  refine ⟨used ++ after, after, ?_, htakes after (ends_of_blank hafter), hafter⟩
  rw [skipBlank_append hlead, skipBlank_of_not_blank (by decide)]

/-- The members of an object that is read are members in its text. -/
theorem Series.exists_pieces {step : σ → Reader σ} {s s' : σ} (hstep : FormedStep step)
    (h : Series step s text s' rest) {lead : List Char} (hlead : skipBlank lead = []) :
    ∃ pieces, (∀ piece ∈ pieces, IsMember piece) ∧ pieces ≠ [] ∧
      lead ++ '"' :: text = [','].intercalate pieces ++ '}' :: rest := by
  induction h generalizing lead with
  | last hs hclose =>
    obtain ⟨piece, hpiece, htext⟩ := exists_piece hlead (hstep _ _ _ _ hs) hclose
    refine ⟨[piece], List.forall_mem_singleton.mpr hpiece, List.cons_ne_nil _ _, ?_⟩
    rw [htext, List.intercalate_singleton]
  | more hs hcomma hquote _ ih =>
    obtain ⟨piece, hpiece, htext⟩ := exists_piece hlead (hstep _ _ _ _ hs) hcomma
    obtain ⟨lead', hlead', rfl⟩ := exists_blanks_append hquote
    obtain ⟨pieces, hpieces, hne, htext'⟩ := ih hlead'
    refine ⟨piece :: pieces, List.forall_mem_cons.mpr ⟨hpiece, hpieces⟩, List.cons_ne_nil _ _, ?_⟩
    rw [htext, htext', List.intercalate_cons_of_ne_nil hne]
    simp

end Highlight.Json
