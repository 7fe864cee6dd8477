import Mathlib.Data.List.Induction

/-!
# Sets whose elements expire

A set is driven by operations that ask for a key, insert a key until some time, and
remove what has expired by a given time.  What the set holds is described by the
operations alone, and a set that stores its keys apart from their expiration times
follows them as long as no key is inserted twice.
-/

/-- The operations on a set whose elements expire. -/
inductive ExpiringOp (κ τ : Type) where
  | contains (key : κ)
  | insert (key : κ) (expiration : τ)
  | removeExpired (now : τ)
  deriving DecidableEq, Repr

namespace ExpiringOp

variable {κ τ : Type} [LT τ]

/-- The key was inserted with the expiration, and no removal since then came as late. -/
def Live (ops : List (ExpiringOp κ τ)) (key : κ) (expiration : τ) : Prop :=
  ∃ earlier later, ops = earlier ++ .insert key expiration :: later ∧
    ∀ now, .removeExpired now ∈ later → now < expiration

variable {ops : List (ExpiringOp κ τ)} {op : ExpiringOp κ τ} {key : κ} {expiration : τ}

theorem not_live_nil : ¬ Live [] key expiration := by
  rintro ⟨earlier, later, split, -⟩
  simp at split

/-- A further operation inserts the pair, or leaves it unless it is a late removal. -/
theorem live_concat : Live (ops ++ [op]) key expiration ↔
    op = .insert key expiration ∨
      Live ops key expiration ∧ ∀ now, op = .removeExpired now → now < expiration := by
  constructor
  · rintro ⟨earlier, later, split, kept⟩
    rcases List.eq_nil_or_concat later with rfl | ⟨rest, last, rfl⟩
    · exact Or.inl (List.cons.inj (List.append_inj' split rfl).2).1
    · rw [List.concat_eq_append] at split kept
      rw [← List.cons_append, ← List.append_assoc] at split
      obtain ⟨rfl, lastEq⟩ := List.append_inj' split rfl
      obtain rfl := (List.cons.inj lastEq).1
      refine Or.inr ⟨⟨earlier, rest, rfl, ?_⟩, ?_⟩
      · intro now member
        exact kept now (List.mem_append_left _ member)
      · rintro now rfl
        exact kept now (by simp)
  · rintro (rfl | ⟨⟨earlier, later, rfl, kept⟩, keptLast⟩)
    · exact ⟨ops, [], rfl, fun _ member => absurd member List.not_mem_nil⟩
    · refine ⟨earlier, later ++ [op], by simp, ?_⟩
      intro now member
      rcases List.mem_append.mp member with before | last
      · exact kept now before
      · exact keptLast now (List.mem_singleton.mp last).symm

/-- The keys of a set and the queue of their expirations, after some operations. -/
structure Tracks (ops : List (ExpiringOp κ τ)) (member : κ → Prop) (queued : κ → τ → Prop) :
    Prop where
  queued_iff : ∀ {key expiration}, queued key expiration ↔ Live ops key expiration
  member_iff : ∀ {key}, member key ↔ ∃ expiration, queued key expiration
  unique : ∀ {key first second}, queued key first → queued key second → first = second

namespace Tracks

variable {member : κ → Prop} {queued : κ → τ → Prop}

theorem empty : Tracks (κ := κ) (τ := τ) [] (fun _ => False) (fun _ _ => False) where
  queued_iff := by simp [not_live_nil]
  member_iff := by simp
  unique := by simp

theorem congr (tracks : Tracks ops member queued) {members : κ → Prop} {queue : κ → τ → Prop}
    (sameMembers : ∀ key, members key ↔ member key)
    (sameQueue : ∀ key expiration, queue key expiration ↔ queued key expiration) :
    Tracks ops members queue where
  queued_iff := by
    intro key expiration
    rw [sameQueue, tracks.queued_iff]
  member_iff := by
    intro key
    rw [sameMembers, tracks.member_iff]
    exact exists_congr fun expiration => (sameQueue key expiration).symm
  unique := by
    intro key first second firstQueued secondQueued
    exact tracks.unique ((sameQueue key first).mp firstQueued) ((sameQueue key second).mp secondQueued)

/-- A key is in the set exactly when it is live. -/
theorem member_iff_live (tracks : Tracks ops member queued) :
    member key ↔ ∃ expiration, Live ops key expiration := by
  rw [tracks.member_iff]
  exact exists_congr fun expiration => tracks.queued_iff

theorem contains (tracks : Tracks ops member queued) (key : κ) :
    Tracks (ops ++ [.contains key]) member queued where
  queued_iff := by simp [tracks.queued_iff, live_concat]
  member_iff := tracks.member_iff
  unique := tracks.unique

/-- A key that is not in the set enters it. -/
theorem insert (tracks : Tracks ops member queued) (absent : ¬ member key) (expiration : τ) :
    Tracks (ops ++ [.insert key expiration]) (fun other => other = key ∨ member other)
      (fun other time => (other = key ∧ time = expiration) ∨ queued other time) where
  queued_iff := by
    intro other time
    rw [live_concat, tracks.queued_iff]
    simp [eq_comm]
  member_iff := by
    intro other
    rw [exists_or, tracks.member_iff]
    simp
  unique := by
    have unqueued : ∀ time, ¬ queued key time := fun time isQueued =>
      absent (tracks.member_iff.mpr ⟨time, isQueued⟩)
    rintro other first second (⟨rfl, rfl⟩ | firstQueued) (⟨same, rfl⟩ | secondQueued)
    · rfl
    · exact absurd secondQueued (unqueued second)
    · rw [same] at firstQueued
      exact absurd firstQueued (unqueued first)
    · exact tracks.unique firstQueued secondQueued

/-- What has expired leaves the set and the queue. -/
theorem removeExpired (tracks : Tracks ops member queued) (now : τ) :
    Tracks (ops ++ [.removeExpired now])
      (fun other => member other ∧ ∀ time, queued other time → now < time)
      (fun other time => queued other time ∧ now < time) where
  queued_iff := by
    intro other time
    rw [live_concat, tracks.queued_iff]
    simp
  member_iff := by
    intro other
    rw [tracks.member_iff]
    constructor
    · rintro ⟨⟨time, isQueued⟩, later⟩
      exact ⟨time, isQueued, later time isQueued⟩
    · rintro ⟨time, isQueued, later⟩
      refine ⟨⟨time, isQueued⟩, fun otherTime otherQueued => ?_⟩
      rwa [← tracks.unique isQueued otherQueued]
  unique := fun first second => tracks.unique first.1 second.1

end Tracks

end ExpiringOp
