import CwBitcoin.Library.Outcome

/-!
# Calls that return

A call returns when it ends with a value or with an error, that is, when nothing in it
panics.  A sequence returns exactly when its first part does and the rest does for the
value that the first part gives.
-/

namespace Outcome

variable {ε α β : Type}

/-- The call ends with a value or an error. -/
def Returns (result : Outcome ε α) : Prop := result ≠ abort

instance (result : Outcome ε α) : Decidable result.Returns :=
  match result with
  | .ok _ => isTrue nofun
  | .error (.error _) => isTrue nofun
  | .error .panic => isFalse fun returns => returns rfl

@[simp]
theorem returns_ok (a : α) : Returns (.ok a : Outcome ε α) := nofun

@[simp]
theorem returns_pure (a : α) : Returns (pure a : Outcome ε α) := nofun

@[simp]
theorem returns_fail (reason : ε) : Returns (fail reason : Outcome ε α) := nofun

@[simp]
theorem not_returns_abort : ¬ Returns (abort : Outcome ε α) := fun returns => returns rfl

theorem returns_of_eq_ok {result : Outcome ε α} {a : α} (equal : result = .ok a) :
    result.Returns := by
  rw [equal]
  exact returns_ok a

/-- A call that returns gives a value or an error. -/
theorem Returns.cases {result : Outcome ε α} (returns : result.Returns) :
    (∃ a, result = .ok a) ∨ ∃ reason, result = fail reason := by
  match result with
  | .ok a => exact Or.inl ⟨a, rfl⟩
  | .error (.error reason) => exact Or.inr ⟨reason, rfl⟩
  | .error .panic => exact absurd returns not_returns_abort

@[simp]
theorem returns_bind {first : Outcome ε α} {next : α → Outcome ε β} :
    (first >>= next).Returns ↔ first.Returns ∧ ∀ a, first = .ok a → (next a).Returns := by
  match first with
  | .ok a => simp [ok_bind]
  | .error (.error reason) =>
      rw [error_bind]
      exact iff_of_true (returns_fail reason) ⟨returns_fail reason, nofun⟩
  | .error .panic =>
      rw [error_bind]
      exact iff_of_false not_returns_abort fun both => not_returns_abort both.1

@[simp]
theorem returns_map {first : Outcome ε α} {f : α → β} : (f <$> first).Returns ↔ first.Returns := by
  rw [map_eq_pure_bind, returns_bind]
  simp

@[simp]
theorem returns_getOr_fail (reason : ε) (value : Option α) :
    (getOr (fail reason) value).Returns := by
  cases value <;> simp [getOr]

@[simp]
theorem returns_getOr_abort {value : Option α} :
    (getOr (abort : Outcome ε α) value).Returns ↔ value ≠ none := by
  cases value <;> simp [getOr]

@[simp]
theorem returns_require (condition : Prop) [Decidable condition] (reason : ε) :
    (require condition reason).Returns := by
  unfold require
  split <;> simp

theorem returns_mapM {f : α → Outcome ε β} {xs : List α} (each : ∀ a ∈ xs, (f a).Returns) :
    (xs.mapM f).Returns := by
  induction xs with
  | nil => simp
  | cons x xs ih =>
      rw [List.mapM_cons, returns_bind]
      refine ⟨each x List.mem_cons_self, fun y _ => ?_⟩
      rw [returns_bind]
      exact ⟨ih fun a member => each a (List.mem_cons_of_mem x member),
        fun _ _ => returns_pure _⟩

end Outcome
