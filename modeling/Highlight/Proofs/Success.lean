/-!
# What success tells

A chain of steps that may fail has succeeded only if every step has. These lemmas take such a chain
apart from its end, so that a proof about a success meets no failure on the way. Where failures
matter too, two chains are compared step by step (`SameOutcome`).
-/

namespace Highlight

variable {ε ε' α β : Type}

/-- Both steps of a chain that succeeds succeed. -/
theorem exists_of_bind_ok {x : Except ε α} {f : α → Except ε β} {b : β}
    (h : x >>= f = .ok b) : ∃ a, x = .ok a ∧ f a = .ok b := by
  cases x with
  | error e => cases h
  | ok a => exact ⟨a, rfl, h⟩

/-- A chain succeeds if both its steps do. -/
theorem bind_ok {x : Except ε α} {f : α → Except ε β} {a : α} {b : β} (hx : x = .ok a)
    (hf : f a = .ok b) : x >>= f = .ok b := by
  rw [hx]
  exact hf

/-- What comes after a step matters where the step succeeds. -/
theorem bind_congr_ok {x : Except ε α} {f g : α → Except ε β} (h : ∀ a, x = .ok a → f a = g a) :
    x >>= f = x >>= g := by
  cases x with
  | error e => rfl
  | ok a => exact h a rfl

theorem exists_of_map_ok {x : Except ε α} {f : α → β} {b : β} (h : x.map f = .ok b) :
    ∃ a, x = .ok a ∧ f a = b := by
  cases x with
  | error e => cases h
  | ok a => exact ⟨a, rfl, Except.ok.inj h⟩

/-- Telling a failure otherwise does not matter to a success. -/
theorem of_mapError_ok {x : Except ε α} {f : ε → ε'} {a : α} (h : x.mapError f = .ok a) :
    x = .ok a := by
  cases x with
  | error e => cases h
  | ok a' => exact congrArg Except.ok (Except.ok.inj h)

theorem mapError_ok_iff {x : Except ε α} {f : ε → ε'} {a : α} :
    x.mapError f = .ok a ↔ x = .ok a := by
  refine ⟨of_mapError_ok, fun h => ?_⟩
  rw [h]
  rfl

theorem mapError_error_iff {x : Except ε α} {f : ε → ε'} {e' : ε'} :
    x.mapError f = .error e' ↔ ∃ e, x = .error e ∧ f e = e' := by
  constructor
  · intro h
    cases x with
    | error e => exact ⟨e, rfl, Except.error.inj h⟩
    | ok a => cases h
  · rintro ⟨e, rfl, rfl⟩
    rfl

/-! ## Two attempts -/

/-- Two attempts fail for the same reason or lead to what is related. -/
inductive SameOutcome (R : α → α → Prop) : Except ε α → Except ε α → Prop where
  | error (e : ε) : SameOutcome R (.error e) (.error e)
  | ok {a a' : α} : R a a' → SameOutcome R (.ok a) (.ok a')

namespace SameOutcome

variable {R : α → α → Prop} {Q : β → β → Prop} {x x' : Except ε α}

theorem error_iff (h : SameOutcome R x x') (e : ε) : x' = .error e ↔ x = .error e := by
  cases h with
  | error => exact Iff.rfl
  | ok => exact ⟨nofun, nofun⟩

/-- What comes after one attempt. -/
theorem after {f f' : α → Except ε β} (hf : ∀ a, x = .ok a → SameOutcome Q (f a) (f' a)) :
    SameOutcome Q (x >>= f) (x >>= f') := by
  cases x with
  | error e => exact .error e
  | ok a => exact hf a rfl

end SameOutcome

end Highlight
