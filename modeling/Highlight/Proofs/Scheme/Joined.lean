import Highlight.Proofs.Scheme.Restyle

/-!
# A draft is what its members hold together

What a member of a scheme brings does not depend on the members before it: read on its own it gives
a part, and the draft is what the parts hold together (`Joined`), where no field may come up twice.
The parts of members with other names hold nothing. In which order parts come does not matter but
for the order of the listed members (`Joined.perm`), and that does not matter to the scheme.
-/

namespace Highlight.Scheme

open Json

/-- The draft holds what the parts hold together, and no field comes up twice. -/
@[mk_iff]
structure Joined (parts : List Draft) (d : Draft) : Prop where
  keywords : d.keywords.toList = parts.flatMap (·.keywords.toList)
  includes : d.includes.toList = parts.flatMap (·.includes.toList)
  extensions : d.extensions.toList = parts.flatMap (·.extensions.toList)
  autocompletion : d.autocompletion.toList = parts.flatMap (·.autocompletion.toList)
  settings : d.settings.toList = parts.flatMap (·.settings.toList)
  derivation : d.derivation.toList = parts.flatMap (·.derivation.toList)
  listed : d.listed = parts.flatMap (·.listed)

variable {α : Type} {d d₁ part : Draft} {parts : List Draft}

attribute [ext] Draft

/-! ## Fields that may come up once -/

@[simp]
theorem toList_inj {o o' : Option α} : o'.toList = o.toList ↔ o' = o := by
  constructor
  · intro h
    rw [← Option.head?_toList (o := o'), h, Option.head?_toList]
  · rintro rfl
    rfl

@[simp]
theorem toList_eq_append_singleton {o o' : Option α} {v : α} :
    o'.toList = o.toList ++ [v] ↔ o = none ∧ o' = some v := by
  cases o with
  | none => simp [Option.toList_eq_singleton_iff]
  | some w => cases o' <;> simp

/-- What stands before something else in a field that comes up once stands there alone. -/
theorem exists_toList_eq {o : Option α} {before after : List α} (h : o.toList = before ++ after) :
    ∃ o' : Option α, o'.toList = before := by
  cases before with
  | nil => exact ⟨none, rfl⟩
  | cons v before =>
    cases o with
    | none => cases h
    | some w =>
      obtain ⟨rfl, hrest⟩ := List.cons.inj h
      obtain ⟨rfl, _⟩ := List.append_eq_nil_iff.mp hrest.symm
      exact ⟨some w, rfl⟩

/-- In another order a field still comes up once, with the same value. -/
theorem toList_eq_of_perm {o : Option α} {vs vs' : List α} (h : o.toList = vs) (hp : vs'.Perm vs) :
    o.toList = vs' := by
  subst h
  cases o with
  | none => exact (List.perm_nil.mp hp).symm
  | some v => exact (List.perm_singleton.mp hp).symm

/-! ## Joining -/

theorem joined_nil_iff : Joined [] d ↔ d = {} := by
  constructor
  · rintro ⟨hkeywords, hincludes, hextensions, hautocompletion, hsettings, hderivation, hlisted⟩
    obtain ⟨keywords, includes, extensions, autocompletion, settings, derivation, listed⟩ := d
    obtain rfl : keywords = none := Option.toList_eq_nil_iff.mp hkeywords
    obtain rfl : includes = none := Option.toList_eq_nil_iff.mp hincludes
    obtain rfl : extensions = none := Option.toList_eq_nil_iff.mp hextensions
    obtain rfl : autocompletion = none := Option.toList_eq_nil_iff.mp hautocompletion
    obtain rfl : settings = none := Option.toList_eq_nil_iff.mp hsettings
    obtain rfl : derivation = none := Option.toList_eq_nil_iff.mp hderivation
    obtain rfl : listed = [] := hlisted
    rfl
  · rintro rfl
    exact ⟨rfl, rfl, rfl, rfl, rfl, rfl, rfl⟩

/-- Parts are joined one after another. -/
theorem joined_cons_cons_iff {d₀ : Draft} : Joined (d₀ :: part :: parts) d ↔
    ∃ d₁, Joined [d₀, part] d₁ ∧ Joined (d₁ :: parts) d := by
  simp only [joined_iff, List.flatMap_cons, List.flatMap_nil, List.append_nil]
  constructor
  · rintro ⟨hkeywords, hincludes, hextensions, hautocompletion, hsettings, hderivation, hlisted⟩
    -- each field is held by one part at most
    simp only [← List.append_assoc] at *
    obtain ⟨keywords, hkeywords₁⟩ := exists_toList_eq hkeywords
    obtain ⟨includes, hincludes₁⟩ := exists_toList_eq hincludes
    obtain ⟨extensions, hextensions₁⟩ := exists_toList_eq hextensions
    obtain ⟨autocompletion, hautocompletion₁⟩ := exists_toList_eq hautocompletion
    obtain ⟨settings, hsettings₁⟩ := exists_toList_eq hsettings
    obtain ⟨derivation, hderivation₁⟩ := exists_toList_eq hderivation
    refine ⟨⟨keywords, includes, extensions, autocompletion, settings, derivation,
      d₀.listed ++ part.listed⟩, ⟨hkeywords₁, hincludes₁, hextensions₁, hautocompletion₁,
      hsettings₁, hderivation₁, rfl⟩, ?_⟩
    rw [hkeywords₁, hincludes₁, hextensions₁, hautocompletion₁, hsettings₁, hderivation₁]
    exact ⟨hkeywords, hincludes, hextensions, hautocompletion, hsettings, hderivation, hlisted⟩
  · -- the first two parts are joined, and then the others
    rintro ⟨d₁, ⟨hkeywords, hincludes, hextensions, hautocompletion, hsettings, hderivation,
      hlisted⟩, h⟩
    rw [hkeywords, hincludes, hextensions, hautocompletion, hsettings, hderivation, hlisted] at h
    simpa only [List.append_assoc] using h

/-- A part that holds nothing does not matter. -/
theorem joined_cons_empty_iff : Joined ({} :: parts) d ↔ Joined parts d := by
  simp only [joined_iff, List.flatMap_cons, Option.toList_none, List.nil_append]

/-- Other parts that hold nothing, and another order. -/
theorem Joined.perm {parts' empty : List Draft} (h : Joined parts d)
    (hempty : ∀ part ∈ empty, part = {}) (hp : parts'.Perm (parts ++ empty)) :
    ∃ listed, Joined parts' { d with listed } ∧ listed.Perm d.listed := by
  -- a field is told by the parts that hold something, in any order
  have hsame : ∀ {β : Type} (f : Draft → List β), f {} = [] →
      (parts'.flatMap f).Perm (parts.flatMap f) := by
    intro β f hf
    have hnone : empty.flatMap f = [] := by
      rw [List.flatMap_eq_nil_iff]
      intro part hpart
      rw [hempty part hpart, hf]
    have hflat := hp.flatMap_right f
    rwa [List.flatMap_append, hnone, List.append_nil] at hflat
  refine ⟨parts'.flatMap (·.listed), ?_, ?_⟩
  · exact ⟨toList_eq_of_perm h.keywords (hsame _ rfl), toList_eq_of_perm h.includes (hsame _ rfl),
      toList_eq_of_perm h.extensions (hsame _ rfl),
      toList_eq_of_perm h.autocompletion (hsame _ rfl),
      toList_eq_of_perm h.settings (hsame _ rfl), toList_eq_of_perm h.derivation (hsame _ rfl), rfl⟩
  · rw [h.listed]
    exact hsame _ rfl

/-! ## One member -/

theorem joined_pair_iff : Joined [d, part] d₁ ↔
    d₁.keywords.toList = d.keywords.toList ++ part.keywords.toList ∧
    d₁.includes.toList = d.includes.toList ++ part.includes.toList ∧
    d₁.extensions.toList = d.extensions.toList ++ part.extensions.toList ∧
    d₁.autocompletion.toList = d.autocompletion.toList ++ part.autocompletion.toList ∧
    d₁.settings.toList = d.settings.toList ++ part.settings.toList ∧
    d₁.derivation.toList = d.derivation.toList ++ part.derivation.toList ∧
    d₁.listed = d.listed ++ part.listed := by
  simp [joined_iff]

/-- A field joins a draft in which it has not come up. -/
theorem once_eq_ok_iff_joined {old : Option α} {reader : Reader α} (set : Draft → α → Draft)
    {input rest : List Char}
    (hset : ∀ v d₁, Joined [d, set {} v] d₁ ↔ old = none ∧ d₁ = set d v) :
    once old reader (set d) input = .ok (d₁, rest) ↔
      ∃ part, once none reader (set {}) input = .ok (part, rest) ∧ Joined [d, part] d₁ := by
  constructor
  · intro h
    obtain ⟨hold, v, hv, rfl⟩ := once_eq_ok_iff.mp h
    exact ⟨set {} v, once_eq_ok_iff.mpr ⟨rfl, v, hv, rfl⟩, (hset v _).mpr ⟨hold, rfl⟩⟩
  · rintro ⟨part, h, hjoined⟩
    obtain ⟨_, v, hv, rfl⟩ := once_eq_ok_iff.mp h
    obtain ⟨hold, rfl⟩ := (hset v d₁).mp hjoined
    exact once_eq_ok_iff.mpr ⟨hold, v, hv, rfl⟩

/-- **A member brings what it would bring alone**, and is refused only if its field has come up. -/
theorem member_eq_ok_iff {name : String} {input rest : List Char} :
    member d name input = .ok (d₁, rest) ↔
      ∃ part, member {} name input = .ok (part, rest) ∧ Joined [d, part] d₁ := by
  unfold member
  split
  · -- the six fields, each with its own reader
    refine once_eq_ok_iff_joined (fun d v => { d with keywords := some v }) fun v d₁ => ?_
    simp [joined_pair_iff, Draft.ext_iff]
    tauto
  split
  · refine once_eq_ok_iff_joined (fun d v => { d with includes := some v }) fun v d₁ => ?_
    simp [joined_pair_iff, Draft.ext_iff]
    tauto
  split
  · refine once_eq_ok_iff_joined (fun d v => { d with extensions := some v }) fun v d₁ => ?_
    simp [joined_pair_iff, Draft.ext_iff]
    tauto
  split
  · refine once_eq_ok_iff_joined (fun d v => { d with autocompletion := some v }) fun v d₁ => ?_
    simp [joined_pair_iff, Draft.ext_iff]
    tauto
  split
  · refine once_eq_ok_iff_joined (fun d v => { d with settings := some v }) fun v d₁ => ?_
    simp [joined_pair_iff, Draft.ext_iff]
    tauto
  split
  · refine once_eq_ok_iff_joined (fun d v => { d with derivation := some v }) fun v d₁ => ?_
    simp [joined_pair_iff, Draft.ext_iff]
    tauto
  · -- no field comes up, and the listed members are gathered in order
    have hjoined : ∀ v : Json,
        Joined [d, if name ∈ listNames then { listed := [(name, v)] } else {}] d₁ ↔
          d₁ = if name ∈ listNames then { d with listed := d.listed ++ [(name, v)] } else d := by
      intro v
      split <;> simp [joined_pair_iff, Draft.ext_iff]
    constructor
    · intro h
      obtain ⟨input', hcolon, h⟩ := afterColon_eq_ok_iff.mp h
      obtain ⟨⟨v, _⟩, hv, h⟩ := exists_of_bind_ok h
      cases h
      exact ⟨_, afterColon_eq_ok_iff.mpr ⟨input', hcolon, bind_ok hv rfl⟩, (hjoined v).mpr rfl⟩
    · rintro ⟨part, h, hpart⟩
      obtain ⟨input', hcolon, h⟩ := afterColon_eq_ok_iff.mp h
      obtain ⟨⟨v, _⟩, hv, h⟩ := exists_of_bind_ok h
      cases h
      rw [(hjoined v).mp hpart]
      exact afterColon_eq_ok_iff.mpr ⟨input', hcolon, bind_ok hv rfl⟩

/-! ## The listed members in another order -/

/-- A list that comes up once is found wherever it stands, one that comes up twice is refused. -/
theorem listField_of_perm {members members' : List (String × Json)} (h : members'.Perm members)
    (name : String) (default : α) (ofJson : Json → Option α) :
    listField members' name default ofJson = listField members name default ofJson := by
  have hfilter := h.filter fun e => decide (e.1 = name)
  unfold listField
  generalize members.filter (fun e => decide (e.1 = name)) = found,
    members'.filter (fun e => decide (e.1 = name)) = found' at hfilter
  rcases found with _ | ⟨e, _ | ⟨e', found⟩⟩
  · rw [List.perm_nil.mp hfilter]
  · rw [List.perm_singleton.mp hfilter]
  · -- two at least on both sides
    have hlength := hfilter.length_eq
    rcases found' with _ | ⟨e, _ | ⟨e', found'⟩⟩
    · simp at hlength
    · simp at hlength
    · rfl

theorem ofDraft_of_perm {listed : List (String × Json)} (h : listed.Perm d.listed) :
    ofDraft { d with listed } = ofDraft d := by
  have hlists : listsOf listed = listsOf d.listed := by
    simp only [listsOf, listField_of_perm h]
  unfold ofDraft
  rw [hlists]

end Highlight.Scheme
