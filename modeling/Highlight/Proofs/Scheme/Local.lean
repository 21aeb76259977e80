import Highlight.Proofs.Json.Value
import Highlight.Scheme.Reader

/-!
# Schemes are read locally

Each member of a scheme is read up to where it ends, whatever comes after it. The texts of a
derivation that is given as an array are read without the closing bracket, and only up to the
fourth; they are local together with the bracket.
-/

namespace Highlight.Scheme

open Json

variable {α : Type} {P : List Char → Prop}

theorem local_pure (x : α) : Local P fun input => .ok (x, input) := by
  intro input y rest hread
  cases hread
  exact ⟨[], rfl, fun _ _ => rfl⟩

theorem refuse_ne_ok {input rest : List Char} {x : α} : refuse input ≠ .ok (x, rest) := by
  intro h
  unfold refuse at h
  split at h
  · cases h
  · cases h
  · cases h
  · obtain ⟨_, _, h⟩ := exists_of_bind_ok h
    cases h

theorem local_text : Local Anything text := by
  intro input s rest hread
  have htext := hread
  unfold text at hread
  split at hread
  · next hquote =>
    have hstring := local_stringBody.map String.ofList
    refine localAt_of_skipBlank hquote (fun _ _ h => ?_) hstring _ _ htext
    rw [text, h]
    rfl
  · exact absurd hread refuse_ne_ok

theorem local_truth : Local Anything truth := by
  intro input b rest hread
  have htruth := hread
  unfold truth at hread
  split at hread
  · next hc =>
    refine localAt_of_skipBlank hc (fun _ _ h => ?_) (local_word true ['r', 'u', 'e']) _ _ htruth
    rw [truth, h]
    rfl
  · next hc =>
    have hword := local_word false ['a', 'l', 's', 'e']
    refine localAt_of_skipBlank hc (fun _ _ h => ?_) hword _ _ htruth
    rw [truth, h]
    rfl
  · exact absurd hread refuse_ne_ok

theorem local_texts : Local Anything texts := by
  intro input ss rest hread
  have htexts := hread
  unfold texts at hread
  split at hread
  · next hbracket =>
    have hitems := local_items local_text.weaken
    refine localAt_of_skipBlank hbracket (fun _ _ h => ?_) hitems _ _ htexts
    rw [texts, h]
    rfl
  · exact absurd hread refuse_ne_ok

theorem objectOf_eq_ok_iff {entry : α → String → Reader α} {start x : α}
    {input rest : List Char} : objectOf entry start input = .ok (x, rest) ↔
      ∃ input', skipBlank input = '{' :: input' ∧ members entry start input' = .ok (x, rest) := by
  unfold objectOf
  split
  · next hbrace => simp [hbrace]
  · next hbrace =>
    constructor
    · intro h
      exact absurd h refuse_ne_ok
    · rintro ⟨input', h, _⟩
      exact (hbrace input' h).elim

theorem local_objectOf {entry : α → String → Reader α} (h : ∀ x name, Local Ends (entry x name))
    (start : α) : Local Anything (objectOf entry start) := by
  intro input x rest hread
  obtain ⟨input', hbrace, _⟩ := objectOf_eq_ok_iff.mp hread
  refine localAt_of_skipBlank hbrace (fun _ _ h => ?_) (local_members h start) _ _ hread
  rw [objectOf, h]
  rfl

/-- The reader of the entries of a table of documents. -/
def entry (depth : Nat) (ofJson : Json → α) (t : Table α) (name : String) : Reader (Table α) :=
  afterColon fun input => do
    let (v, rest) ← value depth input
    return (t.put name (ofJson v), rest)

theorem tableOf_eq (depth : Nat) (ofJson : Json → α) :
    tableOf depth ofJson = objectOf (entry depth ofJson) [] := rfl

theorem local_entry (depth : Nat) (ofJson : Json → α) (t : Table α) (name : String) :
    Local Ends (entry depth ofJson t name) :=
  local_afterColon ((local_value depth).map fun v => t.put name (ofJson v))

theorem local_tableOf (depth : Nat) (ofJson : Json → α) : Local Anything (tableOf depth ofJson) :=
  local_objectOf (local_entry depth ofJson) []

/-! ## Derivations -/

/-- What `reader` reads and the closing bracket after it. -/
def closing (reader : Reader α) : Reader α := fun input => do
  let (x, rest) ← reader input
  match skipBlank rest with
  | [] => .error .cutShort
  | ']' :: rest => return (x, rest)
  | _ => .error .illFormed

theorem closing_eq_ok_iff {reader : Reader α} {input rest : List Char} {x : α} :
    closing reader input = .ok (x, rest) ↔
      ∃ mid, reader input = .ok (x, mid) ∧ skipBlank mid = ']' :: rest := by
  constructor
  · intro h
    obtain ⟨⟨x', mid⟩, hx, h⟩ := exists_of_bind_ok h
    dsimp only at h
    split at h
    · cases h
    · next hbracket =>
      cases h
      exact ⟨mid, hx, hbracket⟩
    · cases h
  · rintro ⟨mid, hx, hbracket⟩
    refine bind_ok hx ?_
    dsimp only
    rw [hbracket]
    rfl

theorem closing_next_eq_ok_iff {n : Nat} {input rest : List Char} {ss : List String} :
    closing (textsUpTo.next n) input = .ok (ss, rest) ↔ ∃ s ss' mid, ss = s :: ss' ∧
      text input = .ok (s, mid) ∧ closing (textsUpTo n false) mid = .ok (ss', rest) := by
  simp only [closing_eq_ok_iff]
  constructor
  · rintro ⟨last, h, hbracket⟩
    rw [textsUpTo.next] at h
    obtain ⟨⟨s, mid⟩, hs, h⟩ := exists_of_bind_ok h
    obtain ⟨⟨ss', _⟩, hss, h⟩ := exists_of_bind_ok h
    cases h
    exact ⟨s, ss', mid, rfl, hs, last, hss, hbracket⟩
  · rintro ⟨s, ss', mid, rfl, hs, last, hss, hbracket⟩
    refine ⟨last, ?_, hbracket⟩
    rw [textsUpTo.next]
    exact bind_ok hs (bind_ok hss rfl)

theorem local_closing_next {n : Nat} (h : Local Anything (closing (textsUpTo n false))) :
    Local Anything (closing (textsUpTo.next n)) := by
  intro input ss rest hread
  obtain ⟨s, ss', mid, rfl, hs, hss⟩ := closing_next_eq_ok_iff.mp hread
  obtain ⟨used, rfl, htakes⟩ := local_text _ _ _ hs
  obtain ⟨used', rfl, htakes'⟩ := h _ _ _ hss
  refine ⟨used ++ used', (List.append_assoc _ _ _).symm, ?_⟩
  intro rest' _
  rw [List.append_assoc]
  exact closing_next_eq_ok_iff.mpr
    ⟨s, ss', used' ++ rest', rfl, htakes _ trivial, htakes' rest' trivial⟩

theorem not_takes_closing_next_nil (n : Nat) (ss : List String) :
    ¬Takes Anything (closing (textsUpTo.next n)) [] ss := by
  intro htakes
  obtain ⟨s, ss', mid, _, hs, _⟩ := closing_next_eq_ok_iff.mp (htakes [] trivial)
  cases hs

/-- A text and at most `n` more after a comma. -/
def afterComma (n : Nat) : Reader (List String) := fun input =>
  match skipBlank input with
  | [] => .error .cutShort
  | ']' :: _ => .error .illFormed
  | rest => textsUpTo.next n rest

theorem local_closing_afterComma {n : Nat} (h : Local Anything (closing (textsUpTo n false))) :
    Local Anything (closing (afterComma n)) := by
  intro input ss rest hread
  cases hc : skipBlank input with
  | nil =>
    simp [closing, afterComma, hc] at hread
    cases hread
  | cons c input' =>
    by_cases hbracket : c = ']'
    · simp [closing, afterComma, hc, hbracket] at hread
      cases hread
    · have hnext := (local_closing_next h).cons (not_takes_closing_next_nil n) c
      refine localAt_of_skipBlank hc (fun _ _ h => ?_) hnext _ _ hread
      simp [closing, afterComma, h, hbracket]

theorem local_closing_textsUpTo (n : Nat) (isFirst : Bool) :
    Local Anything (closing (textsUpTo n isFirst)) := by
  induction n generalizing isFirst with
  | zero =>
    -- the bracket must stand here, since no more texts are read
    intro input ss rest hread
    obtain ⟨mid, h, hbracket⟩ := closing_eq_ok_iff.mp hread
    rw [textsUpTo] at h
    cases h
    obtain ⟨blanks, rfl, hblanks⟩ := exists_blanks hbracket
    refine ⟨blanks ++ [']'], by simp, ?_⟩
    intro rest' _
    refine closing_eq_ok_iff.mpr ⟨blanks ++ ']' :: rest', ?_, hblanks rest'⟩
    rw [textsUpTo]
    simp
  | succ n ih =>
    intro input ss rest hread
    cases hc : skipBlank input with
    | nil =>
      simp [closing, textsUpTo, hc] at hread
      cases hread
    | cons c input' =>
      by_cases hbracket : c = ']'
      · subst hbracket
        refine localAt_of_skipBlank hc (fun _ _ h => ?_) (local_pure []) _ _ hread
        refine closing_eq_ok_iff.mpr ⟨']' :: _, ?_, skipBlank_of_not_blank (by decide) _⟩
        simp [textsUpTo, h]
      · -- the first text needs no comma
        cases isFirst with
        | true =>
          have hnext := (local_closing_next (ih false)).cons (not_takes_closing_next_nil n) c
          refine localAt_of_skipBlank hc (fun _ _ h => ?_) hnext _ _ hread
          simp [closing, textsUpTo, h]
        | false =>
          -- a later one does
          by_cases hcomma : c = ','
          · subst hcomma
            have hnext := local_closing_afterComma (ih false)
            refine localAt_of_skipBlank hc (fun input rest h => ?_) hnext _ _ hread
            have htexts : textsUpTo (n + 1) false input = afterComma n rest := by
              rw [textsUpTo, h]
              rfl
            rw [closing, htexts]
            rfl
          · simp [closing, textsUpTo, hc, hcomma] at hread
            cases hread

/-- The derivation that texts in order stand for. -/
def derivationOf? : List String → Option Derivation
  | [grammar, theme, settings] => some { grammar, theme, settings }
  | [grammar, theme, settings, scope] => some { grammar, theme, settings, scope }
  | _ => none

theorem derivationOfArray_eq_ok_iff {input rest : List Char} {d : Derivation} :
    derivationOfArray input = .ok (d, rest) ↔ ∃ fields, derivationOf? fields = some d ∧
      closing (textsUpTo 4 true) input = .ok (fields, rest) := by
  simp only [closing_eq_ok_iff]
  constructor
  · intro h
    obtain ⟨⟨fields, mid⟩, hfields, h⟩ := exists_of_bind_ok h
    dsimp only at h
    -- three texts, or a fourth one for the scope
    split at h
    · next grammar theme settings =>
      have hclosing : closing (fun input => .ok (⟨grammar, theme, settings, ""⟩, input)) mid
          = .ok (d, rest) := h
      obtain ⟨_, hd, hbracket⟩ := closing_eq_ok_iff.mp hclosing
      cases hd
      exact ⟨_, rfl, mid, hfields, hbracket⟩
    · next grammar theme settings scope =>
      have hclosing : closing (fun input => .ok (⟨grammar, theme, settings, scope⟩, input)) mid
          = .ok (d, rest) := h
      obtain ⟨_, hd, hbracket⟩ := closing_eq_ok_iff.mp hclosing
      cases hd
      exact ⟨_, rfl, mid, hfields, hbracket⟩
    · cases h
  · rintro ⟨fields, hd, mid, hfields, hbracket⟩
    refine bind_ok hfields ?_
    unfold derivationOf? at hd
    split at hd
    · cases hd
      dsimp only
      rw [hbracket]
      rfl
    · cases hd
      dsimp only
      rw [hbracket]
      rfl
    · cases hd

theorem local_derivationOfArray : Local Anything derivationOfArray := by
  intro input d rest hread
  obtain ⟨fields, hd, hfields⟩ := derivationOfArray_eq_ok_iff.mp hread
  obtain ⟨used, hinput, htakes⟩ := local_closing_textsUpTo 4 true _ _ _ hfields
  refine ⟨used, hinput, ?_⟩
  intro rest' _
  exact derivationOfArray_eq_ok_iff.mpr ⟨fields, hd, htakes rest' trivial⟩

theorem local_derivationMember (fields : Table String) (name : String) :
    Local Ends (derivationMember fields name) := by
  unfold derivationMember
  split
  · split
    · intro input fields' rest hread
      cases hread
    · exact local_afterColon (local_text.weaken.map _)
  · exact local_afterColon (local_ignored.map fun _ => fields)

theorem local_derivationOfObject : Local Anything derivationOfObject := by
  refine (local_members local_derivationMember []).finish ?_
  intro fields rest d rest' hread
  dsimp only at hread ⊢
  split at hread
  · cases hread
    exact ⟨rfl, fun _ => rfl⟩
  · cases hread

theorem local_derivationReader : Local Anything derivationReader := by
  intro input d rest hread
  have hderivation := hread
  unfold derivationReader at hread
  split at hread
  · next hc =>
    have hword := local_word (none : Option Derivation) ['u', 'l', 'l']
    refine localAt_of_skipBlank hc (fun _ _ h => ?_) hword _ _ hderivation
    rw [derivationReader, h]
    rfl
  · next hc =>
    have harray := local_derivationOfArray.map some
    refine localAt_of_skipBlank hc (fun _ _ h => ?_) harray _ _ hderivation
    rw [derivationReader, h]
    rfl
  · next hc =>
    have hobject := local_derivationOfObject.map some
    refine localAt_of_skipBlank hc (fun _ _ h => ?_) hobject _ _ hderivation
    rw [derivationReader, h]
    rfl
  · exact absurd hread refuse_ne_ok

theorem local_once {old : Option α} {reader : Reader α} (h : Local P reader) (set : α → Draft) :
    Local P (once old reader set) := by
  unfold once
  split
  · intro input x rest hread
    cases hread
  · exact local_afterColon (h.map set)

theorem local_member (d : Draft) (name : String) : Local Ends (member d name) := by
  unfold member
  split
  · exact local_once (local_tableOf _ _).weaken _
  split
  · exact local_once local_texts.weaken _
  split
  · exact local_once local_texts.weaken _
  split
  · exact local_once local_truth.weaken _
  split
  · exact local_once (local_tableOf _ _).weaken _
  split
  · exact local_once local_derivationReader.weaken _
  · exact local_afterColon ((local_value _).map fun v =>
      if name ∈ listNames then { d with listed := d.listed ++ [(name, v)] } else d)

end Highlight.Scheme
