import Mathlib.Data.List.Basic

/-!
# Properties of list elements relative to the elements before them

A queue that only grows at its end often guarantees something about each
element and the part of the queue before it.  Such a guarantee survives
removing elements at the end, and also at the front when it does not depend on
the first elements.
-/

variable {α : Type}

/-- `P` holds of every element and the list of elements before it. -/
def EachAfter (P : List α → α → Prop) (xs : List α) : Prop :=
  ∀ older x newer, xs = older ++ x :: newer → P older x

namespace EachAfter

variable {P : List α → α → Prop} {xs ys : List α} {x : α}

theorem nil : EachAfter P [] := by
  intro older x newer split
  simp at split

theorem of_prefix (each : EachAfter P (xs ++ ys)) : EachAfter P xs := by
  rintro older x newer rfl
  exact each older x (newer ++ ys) (by simp)

/-- Growing at the end only adds one obligation. -/
theorem concat_iff : EachAfter P (xs ++ [x]) ↔ EachAfter P xs ∧ P xs x := by
  constructor
  · intro each
    exact ⟨each.of_prefix, each xs x [] rfl⟩
  · rintro ⟨each, last⟩ older y newer split
    rcases List.eq_nil_or_concat newer with rfl | ⟨others, z, rfl⟩
    · obtain ⟨rfl, yEq⟩ := List.append_inj' split rfl
      obtain rfl : x = y := by simpa using yEq
      exact last
    · rw [List.concat_eq_append, ← List.cons_append, ← List.append_assoc] at split
      exact each older y others (List.append_inj' split rfl).1

theorem singleton (first : P [] x) : EachAfter P [x] :=
  concat_iff.mpr ⟨nil, first⟩

/-- Shrinking at the front keeps what does not depend on the first element. -/
theorem drop (hereditary : ∀ first older y, P (first :: older) y → P older y)
    (each : EachAfter P xs) (count : Nat) : EachAfter P (xs.drop count) := by
  induction count generalizing xs with
  | zero => exact each
  | succ count ih =>
      cases xs with
      | nil => exact each
      | cons first rest =>
          have restEach : EachAfter P rest := by
            rintro older y newer rfl
            exact hereditary first older y (each (first :: older) y newer rfl)
          exact ih restEach

end EachAfter
