import Highlight.Proofs.Json.Value

/-!
# Another value in its place

The reading of an object comes to its members one after another. What stands before the value of a
member is read in the same way whatever the value is, since all readers are local; and what comes
after it is read from related states if the value has made related states. So a value can be
replaced in the text, and what is read of the new text is related to what was read before.
-/

namespace Highlight.Json

variable {σ : Type} {member : σ → String → Reader σ}

/--
Among members that follow an opening quote, and with `s` gathered so far, the reading comes to one
called `name`: `s'` was gathered before it, and `rest` is what stands after its name.
-/
inductive Comes (member : σ → String → Reader σ) (name : String) :
    σ → List Char → σ → List Char → Prop where
  | here {s : σ} {text rest letters : List Char} :
      stringBody text = .ok (letters, rest) → String.ofList letters = name →
      Comes member name s text s rest
  | later {s s₁ s' : σ} {text rest₁ rest₂ rest₃ rest : List Char} :
      named member s text = .ok (s₁, rest₁) → skipBlank rest₁ = ',' :: rest₂ →
      skipBlank rest₂ = '"' :: rest₃ → Comes member name s₁ rest₃ s' rest →
      Comes member name s text s' rest

theorem named_of_stringBody {s s' : σ} {text rest rest' letters : List Char}
    (hname : stringBody text = .ok (letters, rest))
    (h : member s (String.ofList letters) rest = .ok (s', rest')) :
    named member s text = .ok (s', rest') :=
  bind_ok hname h

/-- Members that are read after related states are read alike, and leave related states. -/
def HandsOn (R : σ → σ → Prop) (member : σ → String → Reader σ) : Prop :=
  ∀ s t name text s₁ rest, R s t → member s name text = .ok (s₁, rest) →
    ∃ t₁, member t name text = .ok (t₁, rest) ∧ R s₁ t₁

variable {R : σ → σ → Prop}

theorem HandsOn.named (hR : HandsOn R member) {s t s₁ : σ} {text rest : List Char} (hst : R s t)
    (h : named member s text = .ok (s₁, rest)) :
    ∃ t₁, named member t text = .ok (t₁, rest) ∧ R s₁ t₁ := by
  obtain ⟨⟨letters, mid⟩, hname, h⟩ := exists_of_bind_ok h
  obtain ⟨t₁, ht, hrelated⟩ := hR _ _ _ _ _ _ hst h
  exact ⟨t₁, named_of_stringBody hname ht, hrelated⟩

/-- What is handed on by one member is handed on along all members. -/
theorem Series.related (hR : HandsOn R member) {s s' t : σ} {text rest : List Char}
    (h : Series (named member) s text s' rest) (hst : R s t) :
    ∃ t', Series (named member) t text t' rest ∧ R s' t' := by
  induction h generalizing t with
  | last hs hclose =>
    obtain ⟨t₁, ht, hrelated⟩ := hR.named hst hs
    exact ⟨t₁, .last ht hclose, hrelated⟩
  | more hs hcomma hquote _ ih =>
    obtain ⟨t₁, ht, hrelated⟩ := hR.named hst hs
    obtain ⟨t', hlater, hrelated'⟩ := ih hrelated
    exact ⟨t', .more ht hcomma hquote hlater, hrelated'⟩

/--
The member that the reading comes to was read from `place`. If another text is put there, of which
that member makes a related state and after which the members go on in the same way, then the
loop succeeds on the new text and ends in a related state.
-/
theorem Comes.change (hlocal : ∀ s name, Local Ends (member s name)) (hR : HandsOn R member)
    {name : String} {s s₀ s' : σ} {text place last : List Char}
    (hcomes : Comes member name s text s₀ place) (h : Series (named member) s text s' last) :
    ∃ before s₁ rest, text = before ++ place ∧ member s₀ name place = .ok (s₁, rest) ∧
      (∃ c rest', skipBlank rest = c :: rest' ∧ Ends [c]) ∧
      ∀ place' t₁ rest', member s₀ name place' = .ok (t₁, rest') →
        skipBlank rest' = skipBlank rest → R s₁ t₁ →
          ∃ t', Series (named member) s (before ++ place') t' last ∧ R s' t' := by
  induction hcomes with
  | @here s text place letters hname hletters =>
    -- only the name is read before the value, and the loop goes on after it as it did
    subst hletters
    obtain ⟨before, rfl, htakes⟩ := local_stringBody _ _ _ hname
    cases h with
    | @last _ _ _ rest _ hs hclose =>
      obtain ⟨⟨_, _⟩, hname', hs⟩ := exists_of_bind_ok hs
      rw [hname] at hname'
      cases hname'
      refine ⟨before, s', rest, rfl, hs, ⟨_, _, hclose, startsNot_cons.mpr (by decide)⟩, ?_⟩
      intro place' t₁ rest' ht hrest hrelated
      exact ⟨t₁, .last (named_of_stringBody (htakes _ trivial) ht) (hrest.trans hclose), hrelated⟩
    | @more _ s₁ _ _ rest₁ _ _ _ hs hcomma hquote hlater =>
      obtain ⟨⟨_, _⟩, hname', hs⟩ := exists_of_bind_ok hs
      rw [hname] at hname'
      cases hname'
      refine ⟨before, s₁, rest₁, rfl, hs, ⟨_, _, hcomma, comma_ends⟩, ?_⟩
      intro place' t₁ rest' ht hrest hrelated
      obtain ⟨t', hlater', hrelated'⟩ := hlater.related hR hrelated
      exact ⟨t', .more (named_of_stringBody (htakes _ trivial) ht) (hrest.trans hcomma) hquote
        hlater', hrelated'⟩
  | @later s s₁ s₀ text rest₁ rest₂ rest₃ place hs hcomma hquote _ ih =>
    -- the loop has made the same step
    have hlater : Series (named member) s₁ rest₃ s' last := by
      cases h with
      | last hs' hclose =>
        rw [hs] at hs'
        cases hs'
        rw [hcomma] at hclose
        cases hclose
      | more hs' hcomma' hquote' hlater =>
        rw [hs] at hs'
        cases hs'
        rw [hcomma] at hcomma'
        cases hcomma'
        rw [hquote] at hquote'
        cases hquote'
        exact hlater
    obtain ⟨before, s₁', rest, rfl, hplace, hends, hchange⟩ := ih hlater
    -- and makes it on the new text too, as the member was read locally
    obtain ⟨used, rfl, htakes⟩ := (local_named hlocal s _).upTo hs hcomma comma_ends
    obtain ⟨blanks, rfl, hblanks⟩ := exists_blanks hquote
    refine ⟨used ++ ',' :: blanks ++ '"' :: before, s₁', rest, by simp, hplace, hends, ?_⟩
    intro place' t₁ rest' ht hrest hrelated
    obtain ⟨t', hlater', hrelated'⟩ := hchange place' t₁ rest' ht hrest hrelated
    obtain ⟨mid, hs', hcomma'⟩ := htakes (blanks ++ '"' :: (before ++ place'))
    refine ⟨t', ?_, hrelated'⟩
    simpa using Series.more hs' hcomma' (hblanks _) hlater'

/-- What a step brings about that did not hold before was brought about by some member. -/
theorem Series.exists_comes {Q : σ → Prop} {s s' : σ} {text last : List Char}
    (h : Series (named member) s text s' last) (hs : ¬Q s) (hs' : Q s') :
    ∃ name s₀ place s₁ rest, Comes member name s text s₀ place ∧
      member s₀ name place = .ok (s₁, rest) ∧ ¬Q s₀ ∧ Q s₁ := by
  induction h with
  | last hread hclose =>
    obtain ⟨⟨letters, mid⟩, hname, hread⟩ := exists_of_bind_ok hread
    exact ⟨_, _, mid, _, _, .here hname rfl, hread, hs, hs'⟩
  | @more s s₁ s' text rest₁ rest₂ rest₃ last hread hcomma hquote _ ih =>
    by_cases hs₁ : Q s₁
    · obtain ⟨⟨letters, mid⟩, hname, hread⟩ := exists_of_bind_ok hread
      exact ⟨_, _, mid, _, _, .here hname rfl, hread, hs, hs₁⟩
    · obtain ⟨name, s₀, place, s₂, rest, hcomes, hplace, hs₀, hs₂⟩ := ih hs₁ hs'
      exact ⟨name, s₀, place, s₂, rest, .later hread hcomma hquote hcomes, hplace, hs₀, hs₂⟩

/--
The object at the front of `text` has a member called `name` whose value stands at `place`; before
it, `s` was gathered.
-/
def ValueAt (member : σ → String → Reader σ) (start : σ) (name : String) (text : List Char) (s : σ)
    (place : List Char) : Prop :=
  ∃ inside inner mid, skipBlank text = '{' :: inside ∧ skipBlank inside = '"' :: inner ∧
    Comes member name start inner s mid ∧ skipBlank mid = ':' :: place

end Highlight.Json
