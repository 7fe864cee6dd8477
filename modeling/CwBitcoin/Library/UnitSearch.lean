import Mathlib.Order.Interval.Set.Basic
import Mathlib.Order.Nat

/-!
# Searching by unit steps

A search for a position where a function takes a given value moves up by one
while the value is too small and down by one while it is too large.  It turns
around for ever when it passes the value without taking it.
-/

namespace UnitSearch

/-- From `start` the search moves in one direction to `found`, in at most
`limit` steps. -/
structure Meets (f : Nat → Nat) (target limit start found : Nat) : Prop where
  hits : f found = target
  below : ∀ position, start ≤ position → position < found → f position < target
  above : ∀ position, found < position → position ≤ start → target < f position
  up_le : found ≤ start + limit
  down_le : start ≤ found + limit

variable {f : Nat → Nat} {target limit start found top : Nat}

theorem Meets.start_lt (meets : Meets f target limit start found) (low : f start < target) :
    start < found := by
  rcases Nat.lt_trichotomy found start with lower | rfl | higher
  · exact absurd (meets.above start lower le_rfl) low.not_gt
  · exact absurd meets.hits low.ne
  · exact higher

theorem Meets.lt_start (meets : Meets f target limit start found) (high : target < f start) :
    found < start := by
  rcases Nat.lt_trichotomy found start with lower | rfl | higher
  · exact lower
  · exact absurd meets.hits high.ne'
  · exact absurd (meets.below start le_rfl higher) high.not_gt

theorem meets_of_hit (hit : f start = target) :
    Meets f target limit start found ↔ found = start := by
  constructor
  · intro meets
    rcases Nat.lt_trichotomy found start with lower | same | higher
    · exact absurd hit (meets.above start lower le_rfl).ne'
    · exact same
    · exact absurd hit (meets.below start le_rfl higher).ne
  · rintro rfl
    exact ⟨hit, fun _ le lt => absurd lt le.not_gt, fun _ lt le => absurd lt le.not_gt,
      Nat.le_add_right _ _, Nat.le_add_right _ _⟩

/-- A step up neither loses nor adds a position that is met. -/
theorem meets_of_lt (low : f start < target) :
    Meets f target (limit + 1) start found ↔ Meets f target limit (start + 1) found := by
  constructor
  · intro meets
    have higher := meets.start_lt low
    have upLe := meets.up_le
    exact
      { hits := meets.hits
        below := fun position le lt => meets.below position (by omega) lt
        above := fun position lt le => absurd lt (by omega)
        up_le := by omega
        down_le := by omega }
  · intro meets
    have higher : start < found := by
      by_contra notHigher
      rcases Nat.lt_or_eq_of_le (Nat.le_of_not_lt notHigher) with lower | same
      · exact absurd (meets.above start lower (Nat.le_succ start)) low.not_gt
      · exact absurd (same ▸ meets.hits) low.ne
    have upLe := meets.up_le
    exact
      { hits := meets.hits
        below := by
          intro position le lt
          rcases Nat.lt_or_eq_of_le le with later | rfl
          · exact meets.below position later lt
          · exact low
        above := fun position lt le => absurd lt (by omega)
        up_le := by omega
        down_le := by omega }

/-- A step down neither loses nor adds a position that is met. -/
theorem meets_of_gt (high : target < f (start + 1)) :
    Meets f target (limit + 1) (start + 1) found ↔ Meets f target limit start found := by
  constructor
  · intro meets
    have lower := meets.lt_start high
    have downLe := meets.down_le
    exact
      { hits := meets.hits
        below := fun position le lt => absurd lt (by omega)
        above := fun position lt le => meets.above position lt (by omega)
        up_le := by omega
        down_le := by omega }
  · intro meets
    have lower : found < start + 1 := by
      by_contra notLower
      rcases Nat.lt_or_eq_of_le (Nat.le_of_not_lt notLower) with higher | same
      · exact absurd (meets.below (start + 1) (Nat.le_succ start) higher) high.not_gt
      · exact absurd (same ▸ meets.hits) high.ne'
    have downLe := meets.down_le
    exact
      { hits := meets.hits
        below := fun position le lt => absurd lt (by omega)
        above := by
          intro position lt le
          rcases Nat.lt_or_eq_of_le le with earlier | rfl
          · exact meets.above position lt (Nat.le_of_lt_succ earlier)
          · exact high
        up_le := by omega
        down_le := by omega }

/-- A search that starts too low and does not have far to go meets the first
position where a monotone function takes the value. -/
theorem exists_meets (mono : MonotoneOn f (Set.Iic top)) (taken : f top = target)
    (before : start ≤ top) (near : top ≤ start + limit) :
    ∃ found, found ≤ top ∧ Meets f target limit start found := by
  have exists_enough : ∃ position, start ≤ position ∧ target ≤ f position :=
    ⟨top, before, taken.ge⟩
  obtain ⟨startLe, enough⟩ := Nat.find_spec exists_enough
  have foundLe : Nat.find exists_enough ≤ top := Nat.find_min' _ ⟨before, taken.ge⟩
  refine ⟨Nat.find exists_enough, foundLe, ?_⟩
  exact
    { hits := le_antisymm (taken ▸ mono foundLe (le_refl top) foundLe) enough
      below := by
        intro position le lt
        by_contra notBelow
        exact Nat.find_min exists_enough lt ⟨le, Nat.le_of_not_lt notBelow⟩
      above := fun position lt le => absurd lt (by omega)
      up_le := by omega
      down_le := by omega }

end UnitSearch
