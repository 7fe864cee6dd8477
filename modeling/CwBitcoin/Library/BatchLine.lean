import Mathlib.Data.List.Perm.Subperm

/-!
# Batches taken from a line

Items wait in a line, and from time to time a batch of limited size is taken from its
front.  What is left over waits in reverse order, so that an item may be overtaken by
later ones.  Nothing is lost or taken twice, and an item does not wait longer than full
batches need for everything that waits with it or arrives in the meantime.
-/

/-- The items of a line, the batches taken from it, and what is waiting. -/
structure BatchLine (α : Type) where
  submitted : List α
  batches : List (List α)
  waiting : List α
  conserved : submitted.Perm (batches.flatten ++ waiting)

namespace BatchLine

variable {α : Type}

def empty : BatchLine α where
  submitted := []
  batches := []
  waiting := []
  conserved := .refl []

/-- More items enter the line at its end. -/
def submit (line : BatchLine α) (items : List α) : BatchLine α where
  submitted := line.submitted ++ items
  batches := line.batches
  waiting := line.waiting ++ items
  conserved := by
    rw [← List.append_assoc]
    exact line.conserved.append_right items

/-- A batch of at most `limit` items is taken, and the others wait in reverse order. -/
def take (line : BatchLine α) (limit : Nat) : BatchLine α where
  submitted := line.submitted
  batches := line.batches ++ [line.waiting.take limit]
  waiting := (line.waiting.drop limit).reverse
  conserved := by
    have split : line.waiting.Perm (line.waiting.take limit ++ (line.waiting.drop limit).reverse) := by
      conv_lhs => rw [← List.take_append_drop limit line.waiting]
      exact (List.reverse_perm _).symm.append_left _
    rw [List.flatten_append, List.flatten_singleton, List.append_assoc]
    exact line.conserved.trans (split.append_left _)

@[simp]
theorem submit_nil (line : BatchLine α) : line.submit [] = line := by
  cases line
  simp [submit]

theorem submit_submit (line : BatchLine α) (first second : List α) :
    (line.submit first).submit second = line.submit (first ++ second) := by
  simp [submit, List.append_assoc]

@[simp]
theorem batches_submit (line : BatchLine α) (items : List α) :
    (line.submit items).batches = line.batches := rfl

@[simp]
theorem waiting_submit (line : BatchLine α) (items : List α) :
    (line.submit items).waiting = line.waiting ++ items := rfl

@[simp]
theorem batches_take (line : BatchLine α) (limit : Nat) :
    (line.take limit).batches = line.batches ++ [line.waiting.take limit] := rfl

@[simp]
theorem waiting_take (line : BatchLine α) (limit : Nat) :
    (line.take limit).waiting = (line.waiting.drop limit).reverse := rfl

/-- A later state of a line: all batches since have been full, or what was waiting has been
taken. -/
def Since (limit : Nat) (early late : BatchLine α) : Prop :=
  ∃ items batches, late.submitted = early.submitted ++ items ∧
    late.batches = early.batches ++ batches ∧
    (early.waiting.Subperm batches.flatten ∨ limit * batches.length ≤ batches.flatten.length)

/-- What has been taken and what still waits is what was waiting and what came since. -/
theorem perm_of_since {early late : BatchLine α} {items : List α} {batches : List (List α)}
    (submitted : late.submitted = early.submitted ++ items)
    (taken : late.batches = early.batches ++ batches) :
    (batches.flatten ++ late.waiting).Perm (early.waiting ++ items) := by
  have conserved := late.conserved
  rw [submitted, taken, List.flatten_append, List.append_assoc] at conserved
  have before := early.conserved.append_right items
  rw [List.append_assoc] at before
  exact (List.perm_append_left_iff _).mp (conserved.symm.trans before)

namespace Since

variable {limit : Nat} {early late : BatchLine α}

theorem refl (line : BatchLine α) : Since limit line line :=
  ⟨[], [], (List.append_nil _).symm, (List.append_nil _).symm, .inr (Nat.le_refl _)⟩

theorem submit (since : Since limit early late) (items : List α) :
    Since limit early (late.submit items) := by
  obtain ⟨before, batches, submitted, taken, full⟩ := since
  refine ⟨before ++ items, batches, ?_, taken, full⟩
  rw [← List.append_assoc, ← submitted]
  rfl

theorem batches_extended (since : Since limit early late) : early.batches <+: late.batches := by
  obtain ⟨-, batches, -, taken, -⟩ := since
  exact ⟨batches, taken.symm⟩

/-- A batch that is not full takes all that is waiting. -/
theorem take (since : Since limit early late) {count : Nat} (enough : limit ≤ count) :
    Since limit early (late.take count) := by
  obtain ⟨items, batches, submitted, taken, full⟩ := since
  refine ⟨items, batches ++ [late.waiting.take count], submitted, ?_, ?_⟩
  · rw [← List.append_assoc, ← taken]
    rfl
  · rw [List.flatten_append, List.flatten_singleton]
    by_cases isFull : count ≤ late.waiting.length
    · rcases full with served | full
      · exact .inl (served.trans (List.sublist_append_left _ _).subperm)
      · right
        have lengthEq : (late.waiting.take count).length = count := by
          rw [List.length_take, Nat.min_eq_left isFull]
        rw [List.length_append, List.length_append, lengthEq, List.length_singleton, Nat.mul_add]
        omega
    · left
      rw [List.take_of_length_le (Nat.le_of_not_le isFull)]
      exact (List.sublist_append_left _ _).subperm.trans (perm_of_since submitted taken).symm.subperm

/-- Once full batches could have held everything that was waiting or came since, what was
waiting has been taken. -/
theorem subperm (since : Since limit early late)
    (enough : early.waiting.length + (late.submitted.length - early.submitted.length) ≤
      limit * (late.batches.length - early.batches.length)) :
    early.waiting.Subperm (late.batches.drop early.batches.length).flatten := by
  obtain ⟨items, batches, submitted, taken, full⟩ := since
  rw [submitted, taken, List.length_append, List.length_append, Nat.add_sub_cancel_left,
    Nat.add_sub_cancel_left] at enough
  rw [taken, List.drop_left]
  rcases full with served | full
  · exact served
  · have conserved := perm_of_since submitted taken
    have lengthEq := conserved.length_eq
    rw [List.length_append, List.length_append] at lengthEq
    have empty : late.waiting = [] := List.length_eq_zero_iff.mp (by omega)
    rw [empty, List.append_nil] at conserved
    exact (List.sublist_append_left _ _).subperm.trans conserved.symm.subperm

end Since

end BatchLine
