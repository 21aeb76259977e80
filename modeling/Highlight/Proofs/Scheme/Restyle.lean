import Highlight.Proofs.Json.Place
import Highlight.Proofs.Scheme.Local
import Highlight.Proofs.Table

/-!
# A scheme with another style

The text of a scheme has a style for each of its keywords. Any document that nests no deeper than
the style may can stand in its place: the text is then read as well, and what is read of it differs
at most in the style of that keyword.
-/

namespace Highlight.Scheme

open Json

variable {α : Type}

/-! ## Objects -/

section Objects

variable {entry : α → String → Reader α} {start s last : α} {name : String}
  {input inside inner place rest : List Char}

theorem series_of_objectOf (hlocal : ∀ s name, Local Ends (entry s name))
    (h : objectOf entry start input = .ok (last, rest)) (hbrace : skipBlank input = '{' :: inside)
    (hquote : skipBlank inside = '"' :: inner) : Series (named entry) start inner last rest := by
  obtain ⟨inside', hbrace', hmembers⟩ := objectOf_eq_ok_iff.mp h
  rw [hbrace] at hbrace'
  cases hbrace'
  rw [members_eq, series_eq_ok_iff (local_named hlocal)] at hmembers
  rcases hmembers with ⟨hclose, _⟩ | ⟨inner', hquote', hseries⟩
  · rw [hquote] at hclose
    cases hclose
  · rw [hquote] at hquote'
    cases hquote'
    exact hseries

theorem objectOf_of_series (hlocal : ∀ s name, Local Ends (entry s name))
    (hbrace : skipBlank input = '{' :: inside) (hquote : skipBlank inside = '"' :: inner)
    (h : Series (named entry) start inner last rest) :
    objectOf entry start input = .ok (last, rest) := by
  refine objectOf_eq_ok_iff.mpr ⟨inside, hbrace, ?_⟩
  rw [members_eq, series_eq_ok_iff (local_named hlocal)]
  exact Or.inr ⟨inner, hquote, h⟩

/--
The value at a place of an object was read by `reader`. If another text is put there, of which
`reader` makes a related value and after which the object goes on in the same way, then the new
text is read as an object too, and a related one.
-/
theorem exists_objectOf_changed (hlocal : ∀ s name, Local Ends (entry s name)) {R : α → α → Prop}
    (hR : HandsOn R entry) (hat : ValueAt entry start name input s place) (reader : Reader α)
    (hreader : ∀ text s₁ rest, entry s name text = .ok (s₁, rest) →
      entry s name = afterColon reader) (h : objectOf entry start input = .ok (last, rest)) :
    ∃ before s₁ after, input = before ++ place ∧ reader place = .ok (s₁, after) ∧
      (∃ c after', skipBlank after = c :: after' ∧ Ends [c]) ∧
      ∀ place' t₁ after', reader place' = .ok (t₁, after') → skipBlank after' = skipBlank after →
        R s₁ t₁ → ∃ last', objectOf entry start (before ++ place') = .ok (last', rest) ∧
          R last last' := by
  obtain ⟨inside, inner, mid, hbrace, hquote, hcomes, hcolon⟩ := hat
  have hseries := series_of_objectOf hlocal h hbrace hquote
  obtain ⟨before, s₁, after, rfl, hvalue, hends, hchange⟩ := hcomes.change hlocal hR hseries
  have hentry := hreader _ _ _ hvalue
  rw [hentry] at hvalue hchange
  obtain ⟨place', hcolon', hread⟩ := afterColon_eq_ok_iff.mp hvalue
  rw [hcolon] at hcolon'
  cases hcolon'
  obtain ⟨blanks, rfl, hblanks⟩ := exists_blanks hbrace
  obtain ⟨blanks', rfl, hblanks'⟩ := exists_blanks hquote
  obtain ⟨blanks'', rfl, hblanks''⟩ := exists_blanks hcolon
  refine ⟨blanks ++ '{' :: blanks' ++ '"' :: before ++ blanks'' ++ [':'], s₁, after, by simp,
    hread, hends, ?_⟩
  intro place' t₁ after' hplace' hafter hrelated
  have hcolon' := afterColon_eq_ok_iff.mpr ⟨place', hblanks'' place', hplace'⟩
  obtain ⟨last', hseries', hrelated'⟩ := hchange _ t₁ after' hcolon' hafter hrelated
  refine ⟨last', ?_, hrelated'⟩
  simpa using objectOf_of_series hlocal (hblanks _) (hblanks' _) hseries'

/-- What the members of an object bring about is brought about by the value of one of them. -/
theorem exists_valueAt (hlocal : ∀ s name, Local Ends (entry s name)) {Q : α → Prop}
    (h : objectOf entry start input = .ok (last, rest)) (hstart : ¬Q start) (hlast : Q last) :
    ∃ name s mid s₁ after, entry s name mid = .ok (s₁, after) ∧ ¬Q s ∧ Q s₁ ∧
      ∀ place, skipBlank mid = ':' :: place → ValueAt entry start name input s place := by
  obtain ⟨inside, hbrace, hmembers⟩ := objectOf_eq_ok_iff.mp h
  rw [members_eq, series_eq_ok_iff (local_named hlocal)] at hmembers
  rcases hmembers with ⟨_, rfl⟩ | ⟨inner, hquote, hseries⟩
  · exact absurd hlast hstart
  · obtain ⟨name, s, mid, s₁, after, hcomes, hread, hs, hs₁⟩ := hseries.exists_comes hstart hlast
    refine ⟨name, s, mid, s₁, after, hread, hs, hs₁, ?_⟩
    intro place hplace
    exact ⟨inside, inner, mid, hbrace, hquote, hcomes, hplace⟩

/-- The place of a value is in the text. -/
theorem exists_before (hlocal : ∀ s name, Local Ends (entry s name))
    (hat : ValueAt entry start name input s place)
    (h : objectOf entry start input = .ok (last, rest)) : ∃ before, input = before ++ place := by
  obtain ⟨inside, inner, mid, hbrace, hquote, hcomes, hcolon⟩ := hat
  have hseries := series_of_objectOf hlocal h hbrace hquote
  obtain ⟨before, _, _, rfl, _⟩ := hcomes.change hlocal (R := Eq)
    (fun s _ name text s₁ rest hst h => ⟨s₁, hst ▸ h, rfl⟩) hseries
  obtain ⟨blanks, rfl, _⟩ := exists_blanks hbrace
  obtain ⟨blanks', rfl, _⟩ := exists_blanks hquote
  obtain ⟨blanks'', rfl, _⟩ := exists_blanks hcolon
  exact ⟨blanks ++ '{' :: blanks' ++ '"' :: before ++ blanks'' ++ [':'], by simp⟩

end Objects

/-! ## Styles -/

/--
The object of keywords in the text of a scheme has a member called `keyword`, and its style is what
stands at `place`.
-/
def StyleAt (keyword : String) (text place : List Char) : Prop :=
  ∃ d keywords table, ValueAt member {} "keywords" text d keywords ∧
    ValueAt (entry (maxDepth - 2) Style.ofJson) [] keyword keywords table place

/-- Two drafts in which the keywords have come up, and that differ in the style of one only. -/
def Draft.Restyled (keyword : String) (d d' : Draft) : Prop :=
  ∃ keywords keywords', d.keywords = some keywords ∧
    d' = { d with keywords := some keywords' } ∧ Table.SameBut keyword keywords keywords'

theorem once_eq_ok_iff {old : Option α} {reader : Reader α} {set : α → Draft} {d : Draft}
    {input rest : List Char} : once old reader set input = .ok (d, rest) ↔
      old = none ∧ ∃ v, afterColon reader input = .ok (v, rest) ∧ d = set v := by
  simp only [afterColon_eq_ok_iff]
  constructor
  · intro h
    unfold once at h
    split at h
    · cases h
    · next hold =>
      obtain ⟨input', hcolon, h⟩ := afterColon_eq_ok_iff.mp h
      obtain ⟨⟨v, _⟩, hv, h⟩ := exists_of_bind_ok h
      cases h
      exact ⟨by simpa using hold, v, ⟨input', hcolon, hv⟩, rfl⟩
  · rintro ⟨rfl, v, ⟨input', hcolon, hv⟩, rfl⟩
    exact afterColon_eq_ok_iff.mpr ⟨input', hcolon, bind_ok hv rfl⟩

theorem handsOn_entry (keyword : String) (depth : Nat) (ofJson : Json → α) :
    HandsOn (Table.SameBut keyword) (entry depth ofJson) := by
  intro t u name input t₁ rest htu h
  obtain ⟨input', hcolon, h⟩ := afterColon_eq_ok_iff.mp h
  obtain ⟨⟨v, _⟩, hv, h⟩ := exists_of_bind_ok h
  cases h
  refine ⟨u.put name (ofJson v), ?_, htu.put fun _ => rfl⟩
  exact afterColon_eq_ok_iff.mpr ⟨input', hcolon, bind_ok hv rfl⟩

theorem once_related {keyword : String} {old : Option α} {reader : Reader α}
    {set set' : α → Draft} {d : Draft} {input rest : List Char}
    (hset : ∀ v, Draft.Restyled keyword (set v) (set' v))
    (h : once old reader set input = .ok (d, rest)) :
    ∃ d', once old reader set' input = .ok (d', rest) ∧ Draft.Restyled keyword d d' := by
  obtain ⟨hold, v, hv, rfl⟩ := once_eq_ok_iff.mp h
  exact ⟨set' v, once_eq_ok_iff.mpr ⟨hold, v, hv, rfl⟩, hset v⟩

/-- Members other than the keywords do not look at them, and these do not come up again. -/
theorem handsOn_member (keyword : String) : HandsOn (Draft.Restyled keyword) member := by
  rintro d _ name input d₁ rest ⟨keywords, keywords', hkeywords, rfl, hsame⟩ h
  unfold member at h ⊢
  split at h
  -- a second member with the keywords would have been refused
  · obtain ⟨hnone, _⟩ := once_eq_ok_iff.mp h
    rw [hkeywords] at hnone
    cases hnone
  rw [if_neg ‹_›]
  -- the five other members that a scheme has by name; each changes a field of its own
  iterate 5
    split at h
    · rw [if_pos ‹_›]
      refine once_related (fun v => ?_) h
      exact ⟨keywords, keywords', hkeywords, rfl, hsame⟩
    rw [if_neg ‹_›]
  obtain ⟨input', hcolon, h⟩ := afterColon_eq_ok_iff.mp h
  obtain ⟨⟨v, _⟩, hv, h⟩ := exists_of_bind_ok h
  cases h
  refine ⟨_, afterColon_eq_ok_iff.mpr ⟨input', hcolon, bind_ok hv rfl⟩, ?_⟩
  dsimp only
  split
  · exact ⟨keywords, keywords', hkeywords, rfl, hsame⟩
  · exact ⟨keywords, keywords', hkeywords, rfl, hsame⟩

theorem ofDraft_restyled {keyword : String} {d d' : Draft} {scheme : Scheme}
    (hd : d.Restyled keyword d') (h : ofDraft d = .ok scheme) :
    ∃ keywords, ofDraft d' = .ok { scheme with keywords } ∧
      Table.SameBut keyword scheme.keywords keywords := by
  obtain ⟨keywords, keywords', hkeywords, rfl, hsame⟩ := hd
  obtain ⟨lists, hlists, h⟩ := exists_of_bind_ok h
  cases h
  refine ⟨keywords', bind_ok hlists rfl, ?_⟩
  rw [hkeywords]
  exact hsame

theorem member_keywords (d : Draft) : member d "keywords" =
    once d.keywords (tableOf (maxDepth - 2) Style.ofJson) fun v =>
      { d with keywords := some v } := by
  rw [member, if_pos rfl]

theorem parse_eq_ok_iff {text : List Char} {scheme : Scheme} :
    parse (String.ofList text) = .ok scheme ↔ ∃ d rest,
      objectOf member {} text = .ok (d, rest) ∧ ofDraft d = .ok scheme ∧ skipBlank rest = [] := by
  constructor
  · intro h
    obtain ⟨rest, hread, hrest⟩ := whole_eq_ok_iff.mp h
    rw [String.toList_ofList] at hread
    obtain ⟨⟨d, _⟩, hd, hread⟩ := exists_of_bind_ok hread
    obtain ⟨_, hscheme, hread⟩ := exists_of_bind_ok hread
    cases hread
    exact ⟨d, rest, hd, hscheme, hrest⟩
  · rintro ⟨d, rest, hd, hscheme, hrest⟩
    refine whole_eq_ok_iff.mpr ⟨rest, ?_, hrest⟩
    rw [String.toList_ofList]
    exact bind_ok hd (bind_ok hscheme rfl)

section Restyle

variable {before style style' after : List Char} {keyword : String} {old new : Json}

/-- The object of keywords with another style. -/
theorem exists_tableOf_restyled {depth : Nat} {keywords table : Keywords} {input rest : List Char}
    (hplace : ValueAt (entry depth Style.ofJson) [] keyword input table (style ++ after))
    (htable : tableOf depth Style.ofJson input = .ok (keywords, rest))
    (hold : value depth (style ++ after) = .ok (old, after))
    (hnew : whole (value depth) (String.ofList style') = .ok new) :
    ∃ front keywords', input = front ++ (style ++ after) ∧
      tableOf depth Style.ofJson (front ++ (style' ++ after)) = .ok (keywords', rest) ∧
      Table.SameBut keyword keywords keywords' := by
  rw [tableOf_eq] at htable ⊢
  obtain ⟨front, _, _, rfl, hvalue, ⟨c, _, hc, hends⟩, hchange⟩ := exists_objectOf_changed
    (local_entry _ _) (handsOn_entry keyword _ _) hplace _ (fun _ _ _ _ => rfl) htable
  obtain ⟨⟨v, _⟩, hvalue, hput⟩ := exists_of_bind_ok hvalue
  cases hput
  rw [hold] at hvalue
  cases hvalue
  obtain ⟨rest', hvalue', hrest'⟩ := value_append hnew hc hends
  rw [String.toList_ofList] at hvalue'
  have hput : Table.SameBut keyword (table.put keyword (Style.ofJson old))
      (table.put keyword (Style.ofJson new)) :=
    (Table.SameBut.refl keyword table).put fun hne => absurd rfl hne
  obtain ⟨keywords', htable', hsame⟩ := hchange _ _ rest' (bind_ok hvalue' rfl) hrest' hput
  exact ⟨front, keywords', rfl, htable', hsame⟩

/-- **The text of a scheme with another style is the text of a scheme.** -/
theorem exists_parse_restyled {scheme : Scheme}
    (hparse : parse (String.ofList (before ++ style ++ after)) = .ok scheme)
    (hplace : StyleAt keyword (before ++ style ++ after) (style ++ after))
    (hold : value (maxDepth - 2) (style ++ after) = .ok (old, after))
    (hnew : whole (value (maxDepth - 2)) (String.ofList style') = .ok new) :
    ∃ keywords, parse (String.ofList (before ++ style' ++ after)) = .ok { scheme with keywords } ∧
      Table.SameBut keyword scheme.keywords keywords := by
  obtain ⟨d, middle, table, hkeywords, hstyle⟩ := hplace
  obtain ⟨final, last, hfinal, hscheme, hlast⟩ := parse_eq_ok_iff.mp hparse
  -- where the keywords were read they had not come up before
  have hmember : ∀ text d' rest, member d "keywords" text = .ok (d', rest) →
      member d "keywords" = afterColon fun input => do
        let (v, rest) ← tableOf (maxDepth - 2) Style.ofJson input
        return ({ d with keywords := some v }, rest) := by
    intro text d' rest h
    rw [member_keywords] at h ⊢
    obtain ⟨hnone, _⟩ := once_eq_ok_iff.mp h
    rw [hnone]
    rfl
  obtain ⟨front, _, rest, htext, hmiddle, _, hchange⟩ := exists_objectOf_changed local_member
    (handsOn_member keyword) hkeywords _ hmember hfinal
  obtain ⟨⟨keywords, _⟩, htable, hput⟩ := exists_of_bind_ok hmiddle
  cases hput
  obtain ⟨front', keywords', rfl, htable', hsame⟩ :=
    exists_tableOf_restyled hstyle htable hold hnew
  obtain ⟨final', hfinal', hrestyled⟩ := hchange _ _ rest (bind_ok htable' rfl) rfl
    ⟨keywords, keywords', rfl, rfl, hsame⟩
  obtain ⟨restyled, hdraft, hsame'⟩ := ofDraft_restyled hrestyled hscheme
  refine ⟨restyled, parse_eq_ok_iff.mpr ⟨final', last, ?_, hdraft, hlast⟩, hsame'⟩
  -- the way to the style splits the text where it was said to be split
  have hbefore : before = front ++ front' := by
    have hcancel : before ++ (style ++ after) = front ++ front' ++ (style ++ after) := by
      simpa using htext
    exact List.append_cancel_right hcancel
  rw [hbefore]
  simpa using hfinal'

end Restyle

/-! ## Every keyword has a style in the text -/

theorem member_keywords_of_ne {d d' : Draft} {name : String} {input rest : List Char}
    (hname : name ≠ "keywords") (h : member d name input = .ok (d', rest)) :
    d'.keywords = d.keywords := by
  unfold member at h
  rw [if_neg hname] at h
  iterate 5
    split at h
    · obtain ⟨_, v, _, rfl⟩ := once_eq_ok_iff.mp h
      rfl
  obtain ⟨input', _, h⟩ := afterColon_eq_ok_iff.mp h
  obtain ⟨⟨v, _⟩, _, h⟩ := exists_of_bind_ok h
  cases h
  split
  · rfl
  · rfl

/-- Every name of a table that was read has a document in its text. -/
theorem exists_entryAt {depth : Nat} {ofJson : Json → α} {t : Table α} {keyword : String}
    {input rest : List Char} (h : tableOf depth ofJson input = .ok (t, rest))
    (hk : keyword ∈ t.names) : ∃ front style after old table, input = front ++ (style ++ after) ∧
      ValueAt (entry depth ofJson) [] keyword input table (style ++ after) ∧
      value depth (style ++ after) = .ok (old, after) := by
  rw [tableOf_eq] at h
  obtain ⟨name, table, mid, _, after, hentry, hout, hin, hplaces⟩ := exists_valueAt
    (local_entry _ _) h (Q := fun t => keyword ∈ Table.names t) List.not_mem_nil hk
  obtain ⟨place, hcolon, hentry⟩ := afterColon_eq_ok_iff.mp hentry
  obtain ⟨⟨old, _⟩, hold, hput⟩ := exists_of_bind_ok hentry
  cases hput
  obtain rfl : keyword = name := (Table.mem_names_put.mp hin).resolve_left hout
  obtain ⟨style, rfl, _⟩ := local_value _ _ _ _ hold
  have hplace := hplaces _ hcolon
  obtain ⟨front, hinput⟩ := exists_before (local_entry _ _) hplace h
  exact ⟨front, style, after, old, table, hinput, hplace, hold⟩

/-- The keywords have come up, and one of them is called `keyword`. -/
def Draft.Has (keyword : String) (d : Draft) : Prop :=
  ∃ keywords, d.keywords = some keywords ∧ keyword ∈ keywords.names

/-- Every keyword of a scheme that was read has a style in its text. -/
theorem exists_styleAt {text : List Char} {scheme : Scheme} {keyword : String}
    (h : parse (String.ofList text) = .ok scheme) (hk : keyword ∈ scheme.keywords.names) :
    ∃ before style after old, text = before ++ style ++ after ∧
      StyleAt keyword text (style ++ after) ∧
      value (maxDepth - 2) (style ++ after) = .ok (old, after) := by
  obtain ⟨final, last, hfinal, hscheme, _⟩ := parse_eq_ok_iff.mp h
  obtain ⟨lists, _, hscheme⟩ := exists_of_bind_ok hscheme
  cases hscheme
  have hlast : final.Has keyword := by
    cases hkeywords : final.keywords with
    | none =>
      rw [hkeywords] at hk
      exact absurd hk List.not_mem_nil
    | some keywords =>
      rw [hkeywords] at hk
      exact ⟨keywords, hkeywords, hk⟩
  have hstart : ¬Draft.Has keyword {} := by
    rintro ⟨_, h, _⟩
    cases h
  obtain ⟨name, d, mid, d₁, rest, hmember, hd, hd₁, hplaces⟩ :=
    exists_valueAt local_member hfinal hstart hlast
  -- no other member brings keywords up
  obtain rfl : name = "keywords" := by
    by_contra hname
    rw [Draft.Has, member_keywords_of_ne hname hmember] at hd₁
    exact hd hd₁
  rw [member_keywords] at hmember
  obtain ⟨_, keywords, htable, rfl⟩ := once_eq_ok_iff.mp hmember
  obtain ⟨middle, hcolon, htable⟩ := afterColon_eq_ok_iff.mp htable
  obtain ⟨_, hkeywords, hk⟩ := hd₁
  cases hkeywords
  have hmiddle := hplaces middle hcolon
  obtain ⟨front', style, after, old, table, rfl, hstyle, hold⟩ := exists_entryAt htable hk
  obtain ⟨front, rfl⟩ := exists_before local_member hmiddle hfinal
  exact ⟨front ++ front', style, after, old, by simp, ⟨d, _, table, hmiddle, hstyle⟩, hold⟩

end Highlight.Scheme
