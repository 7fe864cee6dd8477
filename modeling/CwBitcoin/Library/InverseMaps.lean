import Mathlib.Logic.Function.Basic
import Mathlib.Data.Option.Basic

/-!
# Partial maps that are inverse to each other

A table and its index stay inverse to each other when a pair is removed from both.
Writing new pairs over old ones keeps them inverse only when the new pairs are inverse
to each other and an old pair is overwritten in both maps or in neither.
-/

/-- Each map has the pairs of the other. -/
def InverseMaps {α β : Type} (f : α → Option β) (g : β → Option α) : Prop :=
  ∀ a b, f a = some b ↔ g b = some a

namespace InverseMaps

variable {α β : Type} {f p : α → Option β} {g q : β → Option α} {a other : α} {b : β}

theorem symm (inverse : InverseMaps f g) : InverseMaps g f := fun b a => (inverse a b).symm

theorem injective (inverse : InverseMaps f g) (first : f a = some b) (second : f other = some b) :
    a = other :=
  Option.some.inj (((inverse a b).mp first).symm.trans ((inverse other b).mp second))

/-- Removing a pair from both maps keeps them inverse. -/
theorem erase [DecidableEq α] [DecidableEq β] (inverse : InverseMaps f g) (pair : f a = some b) :
    InverseMaps (Function.update f a none) (Function.update g b none) := by
  intro x y
  have removed_iff (held : f x = some y) : x = a ↔ y = b := by
    constructor
    · rintro rfl
      exact Option.some.inj (held.symm.trans pair)
    · rintro rfl
      exact inverse.injective held pair
  by_cases isKey : x = a <;> by_cases isValue : y = b
  · simp [isKey, isValue]
  · have notHeld : ¬ g y = some x := fun held =>
      isValue ((removed_iff ((inverse x y).mpr held)).mp isKey)
    rw [isKey, Function.update_self, Function.update_of_ne isValue, ← isKey]
    simpa using notHeld
  · have notHeld : ¬ f x = some y := fun held => isKey ((removed_iff held).mpr isValue)
    rw [isValue, Function.update_self, Function.update_of_ne isKey, ← isValue]
    simpa using notHeld
  · rw [Function.update_of_ne isKey, Function.update_of_ne isValue]
    exact inverse x y

section Overwrite

/-- What a map holds after others have been written over it. -/
def overwrite (p f : α → Option β) (a : α) : Option β := (p a).or (f a)

/-- Every value that is written has been written as a key of the other map. -/
def Covers (p : α → Option β) (q : β → Option α) : Prop := ∀ a b, p a = some b → (q b).isSome

theorem overwrite_of_some (written : p a = some b) : overwrite p f a = some b := by
  rw [overwrite, written, Option.some_or]

theorem overwrite_of_none (unwritten : p a = none) : overwrite p f a = f a := by
  rw [overwrite, unwritten, Option.none_or]

/-- One direction of a pair in the overwritten maps. -/
theorem overwrite_mp (inverse : InverseMaps f g) (written : InverseMaps p q)
    (together : ∀ a b, f a = some b → ((p a).isSome ↔ (q b).isSome))
    (held : overwrite p f a = some b) : overwrite q g b = some a := by
  cases fresh : p a with
  | some value =>
      rw [overwrite_of_some fresh] at held
      obtain rfl := Option.some.inj held
      exact overwrite_of_some ((written a value).mp fresh)
  | none =>
      rw [overwrite_of_none fresh] at held
      have unwritten : q b = none := by
        have together := together a b held
        simpa [fresh] using together
      rw [overwrite_of_none unwritten]
      exact (inverse a b).mp held

/-- The new pairs are inverse to each other when the overwritten maps are. -/
theorem written_of_overwrite (covers : Covers p q)
    (inverse : InverseMaps (overwrite p f) (overwrite q g)) (written : p a = some b) :
    q b = some a := by
  obtain ⟨value, writtenBack⟩ := Option.isSome_iff_exists.mp (covers a b written)
  have held := (inverse a b).mp (overwrite_of_some written)
  rw [overwrite_of_some writtenBack] at held
  rw [writtenBack, held]

/-- An old pair is not overwritten in the first map alone. -/
theorem together_of_overwrite (inverse : InverseMaps f g) (covers : Covers p q)
    (overwritten : InverseMaps (overwrite p f) (overwrite q g)) (held : f a = some b)
    (written : (p a).isSome) : (q b).isSome := by
  obtain ⟨value, writtenValue⟩ := Option.isSome_iff_exists.mp written
  cases back : q b with
  | some key => rfl
  | none =>
      have kept : overwrite q g b = some a := by
        rw [overwrite_of_none back]
        exact (inverse a b).mp held
      have same := (overwritten a b).mpr kept
      rw [overwrite_of_some writtenValue] at same
      obtain rfl := Option.some.inj same
      rw [← back]
      exact covers a value writtenValue

/-- Overwritten maps are inverse exactly when the new pairs are, and an old pair is
overwritten in both maps or in neither. -/
theorem overwrite_iff (inverse : InverseMaps f g) (covers : Covers p q) (coversBack : Covers q p) :
    InverseMaps (overwrite p f) (overwrite q g) ↔
      InverseMaps p q ∧ ∀ a b, f a = some b → ((p a).isSome ↔ (q b).isSome) := by
  constructor
  · intro overwritten
    constructor
    · intro a b
      exact ⟨written_of_overwrite covers overwritten, written_of_overwrite coversBack overwritten.symm⟩
    · intro a b held
      exact ⟨together_of_overwrite inverse covers overwritten held,
        together_of_overwrite inverse.symm coversBack overwritten.symm ((inverse a b).mp held)⟩
  · rintro ⟨written, together⟩ a b
    have togetherBack : ∀ b a, g b = some a → ((q b).isSome ↔ (p a).isSome) := by
      intro b a held
      exact (together a b ((inverse a b).mpr held)).symm
    exact ⟨overwrite_mp inverse written together,
      overwrite_mp inverse.symm written.symm togetherBack⟩

end Overwrite

end InverseMaps
