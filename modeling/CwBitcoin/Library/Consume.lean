import CwBitcoin.Library.Outcome
import Mathlib.Data.List.Forall2

/-!
# Traversals that hand out supplies

A traversal gives every element of a list the supplies that it needs, in order.
Another traversal only says what is needed.  The two agree when they agree on
single elements.
-/

section Consume

variable {α β σ δ ε : Type}

/-- Every element takes its part of the supplies and becomes something else. -/
inductive Consumes (step : α → List σ → β → Prop) : List α → List σ → List β → Prop
  | nil : Consumes step [] [] []
  | cons {x : α} {used : List σ} {y : β} {xs : List α} {rest : List σ} {ys : List β} :
      step x used y → Consumes step xs rest ys → Consumes step (x :: xs) (used ++ rest) (y :: ys)

namespace Consumes

variable {step : α → List σ → β → Prop} {xs : List α} {used : List σ} {ys : List β}

theorem length_eq (consumes : Consumes step xs used ys) : xs.length = ys.length := by
  induction consumes with
  | nil => rfl
  | cons _ _ ih => rw [List.length_cons, List.length_cons, ih]

theorem nil_iff : Consumes step [] used ys ↔ used = [] ∧ ys = [] := by
  constructor
  · rintro ⟨⟩
    exact ⟨rfl, rfl⟩
  · rintro ⟨rfl, rfl⟩
    exact .nil

theorem cons_iff {x : α} : Consumes step (x :: xs) used ys ↔
    ∃ first rest y others, used = first ++ rest ∧ ys = y :: others ∧ step x first y ∧
      Consumes step xs rest others := by
  constructor
  · rintro ⟨⟩
    exact ⟨_, _, _, _, rfl, rfl, ‹_›, ‹_›⟩
  · rintro ⟨first, rest, y, others, rfl, rfl, stepped, consumes⟩
    exact .cons stepped consumes

theorem singleton_iff {x : α} :
    Consumes step [x] used ys ↔ ∃ y, step x used y ∧ ys = [y] := by
  simp only [cons_iff, nil_iff]
  constructor
  · rintro ⟨first, _, y, _, rfl, rfl, stepped, rfl, rfl⟩
    exact ⟨y, by rwa [List.append_nil], rfl⟩
  · rintro ⟨y, stepped, rfl⟩
    exact ⟨used, [], y, [], (List.append_nil used).symm, rfl, stepped, rfl, rfl⟩

theorem and_iff {P : α → Prop} : Consumes (fun x used y => step x used y ∧ P x) xs used ys ↔
    Consumes step xs used ys ∧ ∀ x ∈ xs, P x := by
  constructor
  · intro consumes
    induction consumes with
    | nil => exact ⟨.nil, nofun⟩
    | cons stepped _ ih => exact ⟨.cons stepped.1 ih.1, List.forall_mem_cons.mpr ⟨stepped.2, ih.2⟩⟩
  · rintro ⟨consumes, each⟩
    induction consumes with
    | nil => exact .nil
    | cons stepped _ ih =>
        rw [List.forall_mem_cons] at each
        exact .cons ⟨stepped, each.1⟩ (ih each.2)

/-- Two traversals of a list may be made in either order when they may at each element. -/
theorem interchange {first second : α → List σ → α → Prop} {mid last usedFirst usedSecond}
    (each : ∀ {x y z : α} {used other : List σ}, x ∈ xs → first x used y → second y other z →
      ∃ next, second x other next ∧ first next used z)
    (consumesFirst : Consumes first xs usedFirst mid)
    (consumesSecond : Consumes second mid usedSecond last) :
    ∃ next, Consumes second xs usedSecond next ∧ Consumes first next usedFirst last := by
  induction consumesFirst generalizing usedSecond last with
  | nil =>
      obtain ⟨rfl, rfl⟩ := nil_iff.mp consumesSecond
      exact ⟨[], .nil, .nil⟩
  | cons stepped _ ih =>
      obtain ⟨used, rest, z, others, rfl, rfl, steppedNext, consumes⟩ := cons_iff.mp consumesSecond
      obtain ⟨y, steppedSecond, steppedFirst⟩ := each List.mem_cons_self stepped steppedNext
      obtain ⟨next, restSecond, restFirst⟩ :=
        ih (fun member => each (List.mem_cons_of_mem _ member)) consumes
      exact ⟨y :: next, .cons steppedSecond restSecond, .cons steppedFirst restFirst⟩

theorem exists_of_mem (consumes : Consumes step xs used ys) {y : β} (member : y ∈ ys) :
    ∃ x ∈ xs, ∃ supplies, step x supplies y := by
  induction consumes with
  | nil => cases member
  | cons stepped _ ih =>
      rcases List.mem_cons.mp member with rfl | inRest
      · exact ⟨_, List.mem_cons_self, _, stepped⟩
      · obtain ⟨x, inXs, others⟩ := ih inRest
        exact ⟨x, List.mem_cons_of_mem _ inXs, others⟩

/-- The supplies of equal elements. -/
theorem replicate {x : α} {supply : σ} {y : β} (stepped : step x [supply] y) (count : Nat) :
    Consumes step (List.replicate count x) (List.replicate count supply)
      (List.replicate count y) := by
  induction count with
  | zero => exact .nil
  | succ count ih => exact .cons stepped ih

/-- Elements that satisfy a condition and those that take supplies are related
in the same way as their images. -/
theorem exists_iff_mapM {wants : α → Outcome ε (List δ)} {answers : σ → δ → Prop}
    (agree : ∀ x ∈ xs, ∀ used, (∃ y, step x used y) ↔
      ∃ wanted, wants x = .ok wanted ∧ List.Forall₂ answers used wanted) (used : List σ) :
    (∃ ys, Consumes step xs used ys) ↔
      ∃ wanted, xs.mapM wants = .ok wanted ∧ List.Forall₂ answers used wanted.flatten := by
  induction xs generalizing used with
  | nil => simp [nil_iff, pure, Except.pure]
  | cons x xs ih =>
      have tail := ih fun other member => agree other (List.mem_cons_of_mem _ member)
      have head := agree x List.mem_cons_self
      simp only [cons_iff, List.mapM_cons, Outcome.bind_eq_ok, Outcome.pure_eq_ok]
      constructor
      · rintro ⟨_, first, rest, y, others, rfl, rfl, stepped, consumes⟩
        obtain ⟨wanted, want, answered⟩ := (head first).mp ⟨y, stepped⟩
        obtain ⟨wantedRest, wantRest, answeredRest⟩ := (tail rest).mp ⟨others, consumes⟩
        exact ⟨_, ⟨wanted, want, wantedRest, wantRest, rfl⟩,
          List.rel_append answered answeredRest⟩
      · rintro ⟨_, ⟨wanted, want, wantedRest, wantRest, rfl⟩, answered⟩
        rw [List.flatten_cons] at answered
        obtain ⟨y, stepped⟩ := (head _).mpr
          ⟨wanted, want, List.forall₂_take_append used wanted wantedRest.flatten answered⟩
        obtain ⟨others, consumes⟩ := (tail _).mpr
          ⟨wantedRest, wantRest, List.forall₂_drop_append used wanted wantedRest.flatten answered⟩
        exact ⟨_, _, _, y, others, (List.take_append_drop wanted.length used).symm, rfl, stepped,
          consumes⟩

/-- The same for a traversal that joins what is needed. -/
theorem exists_iff_join {wants : α → Outcome ε (List δ)} {answers : σ → δ → Prop}
    (agree : ∀ x ∈ xs, ∀ used, (∃ y, step x used y) ↔
      ∃ wanted, wants x = .ok wanted ∧ List.Forall₂ answers used wanted) (used : List σ) :
    (∃ ys, Consumes step xs used ys) ↔ ∃ wanted, (do
        let wanted ← xs.mapM wants
        return wanted.flatten) = (.ok wanted : Outcome ε (List δ)) ∧
      List.Forall₂ answers used wanted := by
  rw [exists_iff_mapM agree used]
  simp only [Outcome.bind_eq_ok, Outcome.pure_eq_ok]
  constructor
  · rintro ⟨wanted, want, answered⟩
    exact ⟨_, ⟨wanted, want, rfl⟩, answered⟩
  · rintro ⟨_, ⟨wanted, want, rfl⟩, answered⟩
    exact ⟨wanted, want, answered⟩

end Consumes

end Consume
