import Mathlib.Algebra.BigOperators.Group.List.Basic
import Mathlib.Tactic.Ring

/-!
# Calls that succeed, fail or abort

A call of a checked program returns a value, returns an error that the caller
may still inspect, or panics, which no caller can catch.  Fixed-width unsigned
arithmetic with overflow checks is stated over `Nat`: an operation whose exact
result does not fit in the width panics.
-/

/-- The reason why a call has no result. -/
inductive Fault (ε : Type) where
  | error (reason : ε)
  | panic
  deriving DecidableEq, Repr

/-- The result of a call that may return an error or panic. -/
abbrev Outcome (ε α : Type) := Except (Fault ε) α

namespace Outcome

variable {ε α β : Type}

/-- Return an error to the caller. -/
def fail (reason : ε) : Outcome ε α := .error (.error reason)

/-- Stop the whole program. -/
def abort : Outcome ε α := .error .panic

@[simp]
theorem fail_ne_ok {reason : ε} {a : α} : (fail reason : Outcome ε α) ≠ .ok a := by
  simp [fail]

@[simp]
theorem abort_ne_ok {a : α} : (abort : Outcome ε α) ≠ .ok a := by
  simp [abort]

@[simp]
theorem pure_eq_ok {a b : α} : (pure a : Outcome ε α) = .ok b ↔ a = b := by
  simp [pure, Except.pure]

/-- A sequence succeeds exactly when both of its parts do. -/
@[simp]
theorem bind_eq_ok {first : Outcome ε α} {next : α → Outcome ε β} {b : β} :
    first >>= next = .ok b ↔ ∃ a, first = .ok a ∧ next a = .ok b := by
  cases first <;> simp [bind, Except.bind]

theorem ok_bind {a : α} {next : α → Outcome ε β} : (.ok a : Outcome ε α) >>= next = next a := rfl

theorem error_bind {fault : Fault ε} {next : α → Outcome ε β} :
    (.error fault : Outcome ε α) >>= next = .error fault := rfl

/-- What follows a call matters only for the values that the call gives. -/
theorem bind_congr {first : Outcome ε α} {next other : α → Outcome ε β}
    (same : ∀ a, first = .ok a → next a = other a) : first >>= next = first >>= other := by
  cases first with
  | error fault => rfl
  | ok a => exact same a rfl

@[simp]
theorem map_eq_ok {first : Outcome ε α} {f : α → β} {b : β} :
    f <$> first = .ok b ↔ ∃ a, first = .ok a ∧ f a = b := by
  cases first <;> simp [Functor.map, Except.map]

/-- A check that ends with `false` when something is to be skipped. -/
theorem ite_pure_false_eq_ok {skip : Prop} [Decidable skip] {rest : Outcome ε Bool} :
    (if skip then pure false else rest) = .ok true ↔ ¬ skip ∧ rest = .ok true := by
  split <;> simp_all

/-- Read an optional value, failing with the given outcome when it is absent. -/
def getOr (absent : Outcome ε α) : Option α → Outcome ε α
  | some a => .ok a
  | none => absent

@[simp]
theorem getOr_fail_eq_ok {reason : ε} {value : Option α} {a : α} :
    getOr (fail reason) value = .ok a ↔ value = some a := by
  cases value <;> simp [getOr]

@[simp]
theorem getOr_abort_eq_ok {value : Option α} {a : α} :
    getOr (abort : Outcome ε α) value = .ok a ↔ value = some a := by
  cases value <;> simp [getOr]

theorem getOr_abort_injective {first second : Option α}
    (equal : (getOr abort first : Outcome ε α) = getOr abort second) : first = second := by
  cases first <;> cases second <;> simp_all [getOr, abort]

/-- Continue only when the condition holds. -/
def require (condition : Prop) [Decidable condition] (reason : ε) : Outcome ε Unit :=
  if condition then .ok () else fail reason

@[simp]
theorem require_eq_ok {condition : Prop} [Decidable condition] {reason : ε} {u : Unit} :
    require condition reason = .ok u ↔ condition := by
  unfold require
  split <;> simp_all

/-- Stop the program unless the condition holds. -/
def assert (condition : Prop) [Decidable condition] : Outcome ε Unit :=
  if condition then .ok () else abort

@[simp]
theorem assert_eq_ok {condition : Prop} [Decidable condition] {u : Unit} :
    (assert condition : Outcome ε Unit) = .ok u ↔ condition := by
  unfold assert
  split <;> simp_all

/-- Replace the error that is returned, but not a panic. -/
def mapError (f : ε → ε) : Outcome ε α → Outcome ε α
  | .error (.error reason) => .error (.error (f reason))
  | result => result

@[simp]
theorem mapError_eq_ok {f : ε → ε} {result : Outcome ε α} {a : α} :
    mapError f result = .ok a ↔ result = .ok a := by
  rcases result with (_ | _) | _ <;> simp [mapError]

/-- The value of a successful call has the property. -/
def Ensures (result : Outcome ε α) (P : α → Prop) : Prop := ∀ a, result = .ok a → P a

instance (result : Outcome ε α) (P : α → Prop) [DecidablePred P] : Decidable (Ensures result P) :=
  match result with
  | .ok a => decidable_of_iff (P a) ⟨fun holds _ same => Except.ok.inj same ▸ holds,
      fun ensures => ensures a rfl⟩
  | .error _ => isTrue nofun

section Checked

variable {a b c width : Nat}

/-- Addition of unsigned numbers of the given width. -/
def checkedAdd (width a b : Nat) : Outcome ε Nat :=
  if a + b < 2 ^ width then .ok (a + b) else abort

/-- Subtraction of unsigned numbers. -/
def checkedSub (a b : Nat) : Outcome ε Nat :=
  if b ≤ a then .ok (a - b) else abort

/-- Multiplication of unsigned numbers of the given width. -/
def checkedMul (width a b : Nat) : Outcome ε Nat :=
  if a * b < 2 ^ width then .ok (a * b) else abort

/-- Division of unsigned numbers, which panics on a zero divisor. -/
def checkedDiv (a b : Nat) : Outcome ε Nat :=
  if b = 0 then abort else .ok (a / b)

/-- Remainder of unsigned numbers, which panics on a zero divisor. -/
def checkedMod (a b : Nat) : Outcome ε Nat :=
  if b = 0 then abort else .ok (a % b)

@[simp]
theorem checkedAdd_eq_ok :
    (checkedAdd width a b : Outcome ε Nat) = .ok c ↔ a + b < 2 ^ width ∧ a + b = c := by
  unfold checkedAdd
  split <;> simp_all

@[simp]
theorem checkedSub_eq_ok :
    (checkedSub a b : Outcome ε Nat) = .ok c ↔ b ≤ a ∧ a - b = c := by
  unfold checkedSub
  split <;> simp_all

@[simp]
theorem checkedMul_eq_ok :
    (checkedMul width a b : Outcome ε Nat) = .ok c ↔ a * b < 2 ^ width ∧ a * b = c := by
  unfold checkedMul
  split <;> simp_all

@[simp]
theorem checkedDiv_eq_ok :
    (checkedDiv a b : Outcome ε Nat) = .ok c ↔ b ≠ 0 ∧ a / b = c := by
  unfold checkedDiv
  split <;> simp_all

/-- Add up a list from the left, starting from `start`. -/
def checkedSum (width start : Nat) (values : List Nat) : Outcome ε Nat :=
  values.foldlM (checkedAdd width) start

/-- A checked sum that succeeds is the exact sum. -/
theorem checkedSum_eq_ok {start total : Nat} {values : List Nat}
    (summed : (checkedSum width start values : Outcome ε Nat) = .ok total) :
    total = start + values.sum := by
  induction values generalizing start with
  | nil =>
      have startEq : start = total := pure_eq_ok.mp summed
      simp [startEq]
  | cons value values ih =>
      simp only [checkedSum, List.foldlM_cons, bind_eq_ok, checkedAdd_eq_ok] at summed
      obtain ⟨_, ⟨_, rfl⟩, rest⟩ := summed
      rw [ih rest, List.sum_cons]
      omega

/-- A sum that is in range is computed. -/
theorem checkedSum_add_of_lt {start : Nat} {values : List Nat}
    (fits : start + values.sum < 2 ^ width) :
    (checkedSum width start values : Outcome ε Nat) = .ok (start + values.sum) := by
  induction values generalizing start with
  | nil => rfl
  | cons value values ih =>
      rw [List.sum_cons] at fits
      have addOk : (checkedAdd width start value : Outcome ε Nat) = .ok (start + value) :=
        checkedAdd_eq_ok.mpr ⟨by omega, rfl⟩
      rw [checkedSum, List.foldlM_cons, addOk, ok_bind, ← checkedSum, ih (by omega),
        List.sum_cons, Nat.add_assoc]

theorem checkedSum_of_lt {values : List Nat} (fits : values.sum < 2 ^ width) :
    (checkedSum width 0 values : Outcome ε Nat) = .ok values.sum := by
  rw [checkedSum_add_of_lt (by rwa [Nat.zero_add]), Nat.zero_add]

/-- A checked sum that succeeds is in range. -/
theorem checkedSum_lt {start total : Nat} {values : List Nat} (startLt : start < 2 ^ width)
    (summed : (checkedSum width start values : Outcome ε Nat) = .ok total) :
    total < 2 ^ width := by
  induction values generalizing start with
  | nil =>
      rw [← pure_eq_ok.mp summed]
      exact startLt
  | cons value values ih =>
      simp only [checkedSum, List.foldlM_cons, bind_eq_ok, checkedAdd_eq_ok] at summed
      obtain ⟨_, ⟨inRange, rfl⟩, rest⟩ := summed
      exact ih inRange rest

/-- Adding up computed values from the left computes every one of them, and their
exact sum is in range. -/
theorem foldlM_checkedAdd_eq_ok {f : α → Outcome ε Nat} {xs : List α} {start total : Nat}
    (startLt : start < 2 ^ width)
    (summed : xs.foldlM (fun sum x => do
      let value ← f x
      checkedAdd width sum value) start = .ok total) :
    ∃ values, List.Forall₂ (fun x value => f x = .ok value) xs values ∧
      total = start + values.sum ∧ total < 2 ^ width := by
  induction xs generalizing start with
  | nil =>
      obtain rfl := pure_eq_ok.mp summed
      exact ⟨[], .nil, rfl, startLt⟩
  | cons x xs ih =>
      simp only [List.foldlM_cons, bind_eq_ok, checkedAdd_eq_ok] at summed
      obtain ⟨_, ⟨value, computed, inRange, rfl⟩, rest⟩ := summed
      obtain ⟨values, others, totalEq, totalLt⟩ := ih inRange rest
      refine ⟨value :: values, .cons computed others, ?_, totalLt⟩
      rw [totalEq, List.sum_cons, Nat.add_assoc]

/-- Taking a list away from the left takes its exact sum away. -/
theorem foldlM_checkedSub_eq_ok {values : List Nat} {start rest : Nat}
    (taken : (values.foldlM checkedSub start : Outcome ε Nat) = .ok rest) :
    values.sum + rest = start := by
  induction values generalizing start with
  | nil =>
      rw [List.sum_nil, Nat.zero_add]
      exact (pure_eq_ok.mp taken).symm
  | cons value values ih =>
      simp only [List.foldlM_cons, bind_eq_ok, checkedSub_eq_ok] at taken
      obtain ⟨_, ⟨enough, rfl⟩, others⟩ := taken
      rw [List.sum_cons]
      have restEq := ih others
      omega

end Checked

/-- What every step of a fold preserves holds at its end. -/
theorem foldlM_invariant {Inv : β → Prop} {f : β → α → Outcome ε β}
    (preserve : ∀ state a next, Inv state → f state a = .ok next → Inv next)
    {xs : List α} {start final : β} (holds : Inv start)
    (folded : xs.foldlM f start = .ok final) : Inv final := by
  induction xs generalizing start with
  | nil =>
      have startEq : start = final := pure_eq_ok.mp folded
      rwa [← startEq]
  | cons x xs ih =>
      simp only [List.foldlM_cons, bind_eq_ok] at folded
      obtain ⟨next, stepped, rest⟩ := folded
      exact ih (preserve start x next holds stepped) rest

/-- Every element of a successful `mapM` is the image of the element at its place. -/
theorem mapM_eq_ok {f : α → Outcome ε β} {xs : List α} {ys : List β} :
    xs.mapM f = .ok ys ↔ List.Forall₂ (fun x y => f x = .ok y) xs ys := by
  induction xs generalizing ys with
  | nil => cases ys <;> simp
  | cons x xs ih =>
      simp only [List.mapM_cons, bind_eq_ok, pure_eq_ok, ih]
      constructor
      · rintro ⟨y, head, tail, rest, rfl⟩
        exact List.Forall₂.cons head rest
      · rintro (_ | ⟨head, rest⟩)
        exact ⟨_, head, _, rest, rfl⟩

/-- A `mapM` succeeds exactly when it does for every element. -/
theorem exists_mapM_eq_ok {f : α → Outcome ε β} {xs : List α} :
    (∃ ys, xs.mapM f = .ok ys) ↔ ∀ x ∈ xs, ∃ y, f x = .ok y := by
  induction xs with
  | nil => simp
  | cons x xs ih =>
      simp only [List.mapM_cons, bind_eq_ok, pure_eq_ok, List.forall_mem_cons, ← ih]
      constructor
      · rintro ⟨_, y, head, tail, rest, rfl⟩
        exact ⟨⟨y, head⟩, tail, rest⟩
      · rintro ⟨⟨y, head⟩, tail, rest⟩
        exact ⟨_, y, head, tail, rest, rfl⟩

/-- Nothing is collected exactly when every element contributes nothing. -/
theorem flatten_mapM_eq_ok_nil {f : α → Outcome ε (List β)} {xs : List α} :
    (do
      let lists ← xs.mapM f
      return lists.flatten) = (.ok [] : Outcome ε (List β)) ↔ ∀ x ∈ xs, f x = .ok [] := by
  induction xs with
  | nil => simp
  | cons x xs ih =>
      simp only [bind_eq_ok, pure_eq_ok] at ih
      simp only [List.mapM_cons, bind_eq_ok, pure_eq_ok, List.forall_mem_cons, ← ih]
      constructor
      · rintro ⟨_, ⟨first, firstEq, others, othersEq, rfl⟩, empty⟩
        obtain ⟨rfl, restEmpty⟩ := List.append_eq_nil_iff.mp empty
        exact ⟨firstEq, others, othersEq, restEmpty⟩
      · rintro ⟨firstEq, others, othersEq, restEmpty⟩
        exact ⟨_, ⟨[], firstEq, others, othersEq, rfl⟩, by simpa using restEmpty⟩

section Search

variable {test : α → Outcome ε Bool} {older recent : List α}

/-- The position of the last element that passes a test.  Elements are tested from the
last one on. -/
def rposition (test : α → Outcome ε Bool) : List α → Outcome ε (Option Nat)
  | [] => .ok none
  | x :: rest => do
      match ← rposition test rest with
      | some position => return some (position + 1)
      | none => do
          let passes ← test x
          return if passes then some 0 else none

/-- What comes before an element that passes is not looked at. -/
theorem rposition_append {position : Nat}
    (found : rposition test recent = .ok (some position)) :
    rposition test (older ++ recent) = .ok (some (older.length + position)) := by
  induction older with
  | nil => rwa [List.nil_append, List.length_nil, Nat.zero_add]
  | cons x older ih =>
      rw [List.cons_append, rposition, ih, ok_bind, List.length_cons, Nat.add_right_comm]
      rfl

/-- A test that is decided for every element finds one that passes, if there is one. -/
theorem exists_rposition {passes : α → Prop} [DecidablePred passes]
    (decided : ∀ x ∈ recent, test x = .ok (passes x)) :
    ∃ found, rposition test recent = .ok found ∧
      (found = none → ∀ x ∈ recent, ¬ passes x) ∧
        ∀ position ∈ found, ∃ x, recent[position]? = some x ∧ passes x := by
  induction recent with
  | nil => exact ⟨none, rfl, nofun, nofun⟩
  | cons x recent ih =>
      rw [List.forall_mem_cons] at decided
      obtain ⟨found, searched, none_passes, passing⟩ := ih decided.2
      rw [rposition, searched, ok_bind]
      cases found with
      | some position => exact ⟨some (position + 1), rfl, nofun, fun
          | _, rfl => passing position rfl⟩
      | none =>
          simp only [decided.1, ok_bind]
          by_cases passesX : passes x
          · rw [decide_eq_true passesX]
            exact ⟨some 0, rfl, nofun, fun
              | _, rfl => ⟨x, rfl, passesX⟩⟩
          · rw [decide_eq_false passesX]
            exact ⟨none, rfl, fun _ => List.forall_mem_cons.mpr ⟨passesX, none_passes rfl⟩, nofun⟩

end Search

section Avoids

/-- The result is not the given error.  It may be another one, or a panic. -/
def Avoids (reason : ε) (result : Outcome ε α) : Prop := result ≠ .error (.error reason)

variable {reason other : ε}

@[simp]
theorem avoids_ok (a : α) : Avoids reason (.ok a : Outcome ε α) := nofun

@[simp]
theorem avoids_pure (a : α) : Avoids reason (pure a : Outcome ε α) := nofun

@[simp]
theorem avoids_abort : Avoids reason (abort : Outcome ε α) := nofun

@[simp]
theorem avoids_fail : Avoids reason (fail other : Outcome ε α) ↔ other ≠ reason := by
  simp [Avoids, fail]

/-- A sequence avoids an error when both of its parts do. -/
theorem Avoids.bind {first : Outcome ε α} {next : α → Outcome ε β} (avoids : Avoids reason first)
    (rest : ∀ a, first = .ok a → Avoids reason (next a)) : Avoids reason (first >>= next) := by
  cases first with
  | ok a => exact rest a rfl
  | error fault => simpa [Avoids, Bind.bind, Except.bind] using avoids

@[simp]
theorem avoids_getOr_abort (value : Option α) :
    Avoids reason (getOr abort value : Outcome ε α) := by
  cases value <;> simp [getOr]

@[simp]
theorem avoids_assert (condition : Prop) [Decidable condition] :
    Avoids reason (assert condition) := by
  unfold assert
  split <;> simp

@[simp]
theorem avoids_checkedAdd (width a b : Nat) : Avoids reason (checkedAdd width a b) := by
  unfold checkedAdd
  split <;> simp

@[simp]
theorem avoids_checkedSub (a b : Nat) : Avoids reason (checkedSub a b) := by
  unfold checkedSub
  split <;> simp

@[simp]
theorem avoids_checkedMul (width a b : Nat) : Avoids reason (checkedMul width a b) := by
  unfold checkedMul
  split <;> simp

@[simp]
theorem avoids_checkedDiv (a b : Nat) : Avoids reason (checkedDiv a b) := by
  unfold checkedDiv
  split <;> simp

theorem avoids_foldlM {f : β → α → Outcome ε β} (xs : List α) (start : β)
    (each : ∀ state, ∀ a ∈ xs, Avoids reason (f state a)) : Avoids reason (xs.foldlM f start) := by
  induction xs generalizing start with
  | nil => simp
  | cons x xs ih =>
      rw [List.foldlM_cons]
      apply Avoids.bind (each start x List.mem_cons_self)
      intro next _
      exact ih next fun state a member => each state a (List.mem_cons_of_mem x member)

theorem avoids_mapM {f : α → Outcome ε β} (xs : List α) (each : ∀ a ∈ xs, Avoids reason (f a)) :
    Avoids reason (xs.mapM f) := by
  induction xs with
  | nil => simp
  | cons x xs ih =>
      rw [List.mapM_cons]
      apply Avoids.bind (each x List.mem_cons_self)
      intro y _
      apply Avoids.bind (ih fun a member => each a (List.mem_cons_of_mem x member))
      simp

@[simp]
theorem avoids_checkedSum (width start : Nat) (values : List Nat) :
    Avoids reason (checkedSum width start values) :=
  avoids_foldlM values start fun state value _ => avoids_checkedAdd width state value

end Avoids

end Outcome
