import CwBitcoin.Library.Outcome
import Mathlib.Data.List.Perm.Basic

/-!
# Steps that commute

Steps that are apart may be taken in either order, up to what a view of the states
shows.  Then a list of steps that are apart from each other may be taken in every order.
-/

/-- Steps of a kind that are apart commute in the states with an invariant, as far as a
view shows, and states that look the same take the same steps of the kind. -/
structure Interchange {σ α τ ε : Type} (step : σ → α → Outcome ε σ) (Inv : σ → Prop)
    (view : σ → τ) (Kind : α → Prop) (Apart : α → α → Prop) : Prop where
  symm : ∀ {a b}, Apart a b → Apart b a
  keeps : ∀ {s t a}, Inv s → step s a = .ok t → Inv t
  respects : ∀ {s t a other}, Kind a → view other = view s → step s a = .ok t →
    ∃ next, step other a = .ok next ∧ view next = view t
  swaps : ∀ {s t u a b}, Inv s → Kind a → Kind b → Apart a b → step s a = .ok t →
    step t b = .ok u →
      ∃ next last, step s b = .ok next ∧ step next a = .ok last ∧ view last = view u

namespace Interchange

variable {σ α τ ε : Type} {step : σ → α → Outcome ε σ} {Inv : σ → Prop} {view : σ → τ}
  {Kind : α → Prop} {Apart : α → α → Prop} {s t other : σ} {first second : List α}

theorem foldlM_congr (interchange : Interchange step Inv view Kind Apart)
    (kinds : ∀ a ∈ first, Kind a) (same : view other = view s)
    (taken : first.foldlM step s = .ok t) :
    ∃ next, first.foldlM step other = .ok next ∧ view next = view t := by
  induction first generalizing s other with
  | nil => exact ⟨other, rfl, Outcome.pure_eq_ok.mp taken ▸ same⟩
  | cons a rest ih =>
      rw [List.forall_mem_cons] at kinds
      rw [List.foldlM_cons, Outcome.bind_eq_ok] at taken
      obtain ⟨middle, stepped, taken⟩ := taken
      obtain ⟨next, stepped, same⟩ := interchange.respects kinds.1 same stepped
      rw [List.foldlM_cons, stepped, Outcome.ok_bind]
      exact ih kinds.2 same taken

/-- Steps that are apart from each other are taken in every order, to the same view. -/
theorem foldlM_perm (interchange : Interchange step Inv view Kind Apart)
    (perm : first.Perm second) (kinds : ∀ a ∈ first, Kind a) (apart : first.Pairwise Apart)
    (inv : Inv s) (taken : first.foldlM step s = .ok t) :
    ∃ next, second.foldlM step s = .ok next ∧ view next = view t := by
  induction perm generalizing s t with
  | nil => exact ⟨t, taken, rfl⟩
  | cons a _ ih =>
      rw [List.foldlM_cons, Outcome.bind_eq_ok] at taken
      obtain ⟨middle, stepped, taken⟩ := taken
      rw [List.foldlM_cons, stepped, Outcome.ok_bind]
      exact ih (List.forall_mem_cons.mp kinds).2 apart.of_cons (interchange.keeps inv stepped) taken
  | swap a b rest =>
      simp only [List.foldlM_cons, Outcome.bind_eq_ok] at taken
      obtain ⟨middle, stepB, after, stepA, taken⟩ := taken
      simp only [List.forall_mem_cons] at kinds
      have apartBA : Apart b a := List.rel_of_pairwise_cons apart List.mem_cons_self
      obtain ⟨next, last, stepA, stepB, same⟩ :=
        interchange.swaps inv kinds.1 kinds.2.1 apartBA stepB stepA
      rw [List.foldlM_cons, stepA, Outcome.ok_bind, List.foldlM_cons, stepB, Outcome.ok_bind]
      exact interchange.foldlM_congr kinds.2.2 same taken
  | trans firstPerm _ ihFirst ihSecond =>
      obtain ⟨middle, takenMiddle, sameMiddle⟩ := ihFirst kinds apart inv taken
      have kindsMiddle : ∀ a ∈ _, Kind a := fun a member => kinds a (firstPerm.mem_iff.mpr member)
      have apartMiddle := (firstPerm.pairwise_iff interchange.symm).mp apart
      obtain ⟨next, takenNext, sameNext⟩ := ihSecond kindsMiddle apartMiddle inv takenMiddle
      exact ⟨next, takenNext, sameNext.trans sameMiddle⟩

end Interchange
