import CwBitcoin.QueueShape

/-!
# Handing out pending transfers

What a checkpoint hands out leaves its pending transfers, and nothing else
does.  Two passes hand out transfers, over the confirmed and over the completed
checkpoints, and both read complete checkpoints only.
-/

namespace CwBitcoin

/-- The checkpoint after its pending transfers have been handed out. -/
def Checkpoint.paidOut (checkpoint : Checkpoint) : Checkpoint := { checkpoint with pending := [] }

namespace QueueStore

/-- The transfers that wait in the checkpoints of the queue. -/
def pending (queue : QueueStore) : List (Dest × Coin) :=
  queue.checkpoints.flatMap Checkpoint.pending

variable {queue middle after : QueueStore} {index : Nat} {indexes : List Nat}
  {checkpoint : Checkpoint} {dests : Payouts}

theorem pending_put_paidOut (found : queue.window.item index = some checkpoint) :
    queue.pending.Perm (checkpoint.pending ++ (queue.put index checkpoint.paidOut).pending) := by
  obtain ⟨before, newer, -, itemsEq, putEq⟩ := Window.exists_split found
  have checkpointsEq : queue.checkpoints = before ++ checkpoint :: newer := itemsEq
  have replacedEq : (queue.put index checkpoint.paidOut).checkpoints =
      before ++ checkpoint.paidOut :: newer := putEq _
  rw [pending, pending, checkpointsEq, replacedEq]
  simp only [List.flatMap_append, List.flatMap_cons, Checkpoint.paidOut, List.nil_append]
  rw [← List.append_assoc, ← List.append_assoc]
  exact List.perm_append_comm.append_right _

/-- What taking the pending transfers of the given checkpoints does. -/
structure Takes (queue : QueueStore) (indexes : List Nat) (after : QueueStore)
    (dests : Payouts) : Prop where
  conserved : queue.pending.Perm (dests.flatten ++ after.pending)
  origin : ∀ entry ∈ dests.flatten, ∃ index ∈ indexes, ∃ checkpoint,
    queue.window.item index = some checkpoint ∧ entry ∈ checkpoint.pending
  item : ∀ index, after.window.item index =
    if index ∈ indexes then (queue.window.item index).map Checkpoint.paidOut
    else queue.window.item index
  after_eq : after = { queue with checkpoints := after.checkpoints }

theorem Takes.nil (queue : QueueStore) : queue.Takes [] queue [] where
  conserved := List.Perm.refl _
  origin := by simp
  item := by simp
  after_eq := rfl

/-- One checkpoint hands out its transfers before the others do. -/
theorem Takes.cons (found : queue.window.item index = some checkpoint)
    (rest : (queue.put index checkpoint.paidOut).Takes indexes after dests) :
    queue.Takes (index :: indexes) after (checkpoint.pending :: dests) where
  conserved := by
    rw [List.flatten_cons, List.append_assoc]
    exact (pending_put_paidOut found).trans (rest.conserved.append_left _)
  origin := by
    intro entry member
    rw [List.flatten_cons, List.mem_append] at member
    rcases member with here | later
    · exact ⟨index, List.mem_cons_self, checkpoint, found, here⟩
    · obtain ⟨other, otherMember, current, currentAt, waiting⟩ := rest.origin entry later
      rw [window_put, Window.item_put found] at currentAt
      split at currentAt
      · obtain rfl := Option.some.inj currentAt
        simp [Checkpoint.paidOut] at waiting
      · exact ⟨other, List.mem_cons_of_mem _ otherMember, current, currentAt, waiting⟩
  item := by
    intro other
    rw [rest.item, window_put, Window.item_put found]
    by_cases same : other = index
    · simp [same, found, Checkpoint.paidOut]
    · simp [same]
  after_eq := rest.after_eq

theorem takes_of_takePending (taken : queue.takePending indexes = .ok (after, dests)) :
    queue.Takes indexes after dests := by
  induction indexes generalizing queue dests with
  | nil =>
      simp only [takePending, Except.ok.injEq, Prod.mk.injEq] at taken
      rw [← taken.1, ← taken.2]
      exact .nil queue
  | cons index rest ih =>
      simp only [takePending, Outcome.bind_eq_ok, Outcome.pure_eq_ok, Prod.mk.injEq] at taken
      obtain ⟨checkpoint, got, cleared, wrote, ⟨last, others⟩, takenRest, rfl, rfl⟩ := taken
      obtain ⟨-, found⟩ := get_eq_ok.mp got
      obtain ⟨-, -, -, rfl⟩ := set_eq_ok.mp wrote
      exact .cons found (ih takenRest)

theorem Takes.keeps (takes : queue.Takes indexes after dests)
    (found : after.window.item index = some checkpoint) :
    ∃ earlier, queue.window.item index = some earlier ∧
      checkpoint.status = earlier.status ∧ ∀ entry ∈ checkpoint.pending, entry ∈ earlier.pending := by
  rw [takes.item] at found
  split at found
  · obtain ⟨earlier, earlierAt, rfl⟩ := Option.map_eq_some_iff.mp found
    exact ⟨earlier, earlierAt, rfl, by simp [Checkpoint.paidOut]⟩
  · exact ⟨checkpoint, found, rfl, fun _ member => member⟩

theorem Takes.item_later (takes : queue.Takes indexes after dests)
    (found : queue.window.item index = some checkpoint) :
    ∃ later, after.window.item index = some later ∧ later.status = checkpoint.status := by
  rw [takes.item, found]
  split
  · exact ⟨_, rfl, rfl⟩
  · exact ⟨_, rfl, rfl⟩

theorem Takes.paid (takes : queue.Takes indexes after dests) (member : index ∈ indexes)
    (found : after.window.item index = some checkpoint) : checkpoint.pending = [] := by
  rw [takes.item, if_pos member] at found
  obtain ⟨earlier, -, rfl⟩ := Option.map_eq_some_iff.mp found
  rfl

end QueueStore

namespace QueueStore

variable {queue after : QueueStore} {index : Nat} {checkpoint : Checkpoint}

theorem completeFrom_complete {indexes : List Nat} {found : List (Nat × Checkpoint)}
    (read : queue.completeFrom indexes = .ok found) :
    ∀ entry ∈ found, queue.window.item entry.1 = some entry.2 ∧ entry.2.status = .complete := by
  induction indexes generalizing found with
  | nil =>
      obtain rfl := Except.ok.inj read
      simp
  | cons index rest ih =>
      simp only [completeFrom, Outcome.bind_eq_ok] at read
      obtain ⟨checkpoint, got, read⟩ := read
      split at read
      · rename_i isComplete
        simp only [Outcome.bind_eq_ok, Outcome.pure_eq_ok] at read
        obtain ⟨others, readRest, rfl⟩ := read
        obtain ⟨-, at_index⟩ := get_eq_ok.mp got
        exact List.forall_mem_cons.mpr ⟨⟨at_index, isComplete⟩, ih readRest⟩
      · obtain rfl := Outcome.pure_eq_ok.mp read
        simp

/-- The confirmed checkpoints that have not been handled are complete. -/
theorem unhandledConfirmed_complete {unhandled : List Nat}
    (read : queue.unhandledConfirmed = .ok unhandled) (member : index ∈ unhandled) :
    ∃ checkpoint, queue.window.item index = some checkpoint ∧ checkpoint.status = .complete := by
  unfold unhandledConfirmed at read
  split at read
  · obtain rfl := Outcome.pure_eq_ok.mp read
    simp at member
  · simp only [Outcome.bind_eq_ok, Outcome.pure_eq_ok] at read
    obtain ⟨found, readFrom, rfl⟩ := read
    obtain ⟨entry, entryMember, rfl⟩ := List.mem_map.mp member
    exact ⟨entry.2, completeFrom_complete readFrom entry entryMember⟩

/-- Whether a checkpoint waits for signatures can be read in every queue of the
right shape. -/
theorem Shaped.exists_signing (shaped : queue.Shaped) : ∃ found, queue.signing = .ok found := by
  by_cases short : queue.checkpoints.length < 2
  · exact ⟨none, by simp [signing, short]⟩
  · cases shaped with
    | empty checkpoints_eq => simp [checkpoints_eq] at short
    | ordered ordered =>
        have lengthEq := ordered.length_eq
        obtain ⟨second, secondAt⟩ := Window.exists_item ordered.aligned.window
          (by omega : queue.window.first ≤ queue.buildingIndex - 1) (Nat.sub_le _ _)
        have got := get_eq_ok.mpr ⟨ordered.aligned, secondAt⟩
        have positive : 1 ≤ queue.buildingIndex := by
          have enough : queue.checkpoints.length ≤ queue.buildingIndex + 1 := ordered.aligned.window
          omega
        refine ⟨if second.status = .signing then some second else none, ?_⟩
        simp only [signing, if_neg short, Outcome.bind_eq_ok, Outcome.checkedSub_eq_ok,
          Outcome.pure_eq_ok]
        exact ⟨_, ⟨positive, rfl⟩, second, got, rfl⟩

theorem lastCompletedIndex_eq {signingFound : Option Checkpoint}
    (read : queue.signing = .ok signingFound) :
    queue.lastCompletedIndex =
      if (if signingFound.isSome then 2 else 1) ≤ queue.buildingIndex then
        .ok (queue.buildingIndex - if signingFound.isSome then 2 else 1)
      else .error (.error noCompleted) := by
  unfold lastCompletedIndex
  rw [read, Outcome.ok_bind]
  by_cases enough : (if signingFound.isSome then 2 else 1) ≤ queue.buildingIndex
  · simp only [Outcome.require, if_pos enough]
    rfl
  · simp only [Outcome.require, if_neg enough]
    rfl

/-- Which checkpoints are complete depends on whether one waits for
signatures. -/
theorem Ordered.complete_iff (ordered : queue.Ordered) {signingFound : Option Checkpoint}
    (read : queue.signing = .ok signingFound)
    (found : queue.window.item index = some checkpoint) :
    checkpoint.status = .complete ↔
      index + (if signingFound.isSome then 2 else 1) ≤ queue.buildingIndex := by
  have upper : index ≤ queue.buildingIndex := Window.le_last_of_item ordered.aligned.window found
  rcases Nat.lt_or_eq_of_le upper with before | rfl
  · rcases signing_eq_ok read with ⟨short, -⟩ | ⟨second, -, positive, secondAt, isFound⟩
    · have lower := Window.first_le_of_item found
      have lengthEq := ordered.length_eq
      omega
    · rcases Nat.lt_or_eq_of_le (Nat.succ_le_of_lt before) with earlier | isSecond
      · have isComplete : checkpoint.status = .complete := ordered.complete found earlier
        exact ⟨fun _ => by split <;> omega, fun _ => isComplete⟩
      · obtain rfl : index = queue.buildingIndex - 1 := by omega
        obtain rfl := Option.some.inj (found.symm.trans secondAt)
        have notBuilding := ordered.frozen found before
        cases status : checkpoint.status with
        | building => exact absurd status notBuilding
        | signing =>
            rw [if_pos status] at isFound
            simp only [isFound, Option.isSome_some, if_true, reduceCtorEq, false_iff]
            omega
        | complete =>
            rw [if_neg (by simp [status])] at isFound
            simp only [isFound, Option.isSome_none, Bool.false_eq_true, if_false, true_iff]
            omega
  · have isBuilding : checkpoint.status = .building := ordered.last found
    simp only [isBuilding, reduceCtorEq, false_iff]
    split <;> omega

/-- The complete checkpoints are those up to the last completed index. -/
theorem Shaped.complete_iff_le_last (shaped : queue.Shaped) {lastCompletedIndex : Nat}
    (read : queue.lastCompletedIndex = .ok lastCompletedIndex)
    (found : queue.window.item index = some checkpoint) :
    checkpoint.status = .complete ↔ index ≤ lastCompletedIndex := by
  simp only [QueueStore.lastCompletedIndex, Outcome.bind_eq_ok, Outcome.require_eq_ok,
    Outcome.pure_eq_ok] at read
  obtain ⟨signingFound, readSigning, -, enough, rfl⟩ := read
  rw [(shaped.ordered_of_item found).complete_iff readSigning found]
  omega

/-- When no index is completed, no checkpoint is complete. -/
theorem Shaped.not_complete (shaped : queue.Shaped)
    (read : queue.lastCompletedIndex = .error (.error noCompleted))
    (found : queue.window.item index = some checkpoint) : checkpoint.status ≠ .complete := by
  intro isComplete
  obtain ⟨signingFound, readSigning⟩ := shaped.exists_signing
  have enough := ((shaped.ordered_of_item found).complete_iff readSigning found).mp isComplete
  rw [lastCompletedIndex_eq readSigning, if_pos (by omega)] at read
  cases read

end QueueStore

namespace QueueStore

/-- What handing out the transfers of the confirmed and the completed
checkpoints does. -/
structure PaysOut (queue after : QueueStore) (dests : Payouts) : Prop where
  conserved : queue.pending.Perm (dests.flatten ++ after.pending)
  origin : ∀ entry ∈ dests.flatten, ∃ index checkpoint,
    queue.window.item index = some checkpoint ∧ checkpoint.status = .complete ∧
      entry ∈ checkpoint.pending
  keeps : ∀ {index checkpoint}, after.window.item index = some checkpoint →
    ∃ earlier, queue.window.item index = some earlier ∧ checkpoint.status = earlier.status ∧
      ∀ entry ∈ checkpoint.pending, entry ∈ earlier.pending
  paid : ∀ {index checkpoint}, after.window.item index = some checkpoint →
    checkpoint.status = .complete → queue.confirmedIndex.getD 0 ≤ index → checkpoint.pending = []

variable {queue after : QueueStore} {dests : Payouts}

/-- The first pass reads complete checkpoints. -/
theorem takes_of_takePendingConfirmed (shaped : queue.Shaped)
    (taken : queue.takePendingConfirmed = .ok (after, dests)) :
    ∃ unhandled cleared firstUnhandled, queue.Takes unhandled cleared dests ∧
      after = { cleared with firstUnhandledConfirmedIndex := firstUnhandled } ∧ after.Shaped ∧
      ∀ index ∈ unhandled, ∃ checkpoint, queue.window.item index = some checkpoint ∧
        checkpoint.status = .complete := by
  rcases takePendingConfirmed_eq_ok taken with ⟨rfl, rfl⟩ | ⟨unhandled, cleared, next, read, each, rfl⟩
  · exact ⟨[], after, after.firstUnhandledConfirmedIndex, .nil after, rfl, shaped, by simp⟩
  · exact ⟨unhandled, cleared, next, takes_of_takePending each, rfl,
      (shaped.takePending each).withFirstUnhandled next,
      fun index member => unhandledConfirmed_complete read member⟩

/-- Both passes together hand out transfers of complete checkpoints, and drop
none of them. -/
theorem paysOut_of_takePendingCompleted (shaped : queue.Shaped)
    (taken : queue.takePendingCompleted = .ok (after, dests)) : queue.PaysOut after dests := by
  obtain ⟨confirmed, confirmedDests, takenConfirmed, rest⟩ := takePendingCompleted_eq_ok taken
  obtain ⟨unhandled, cleared, next, takes, confirmedEq, confirmedShaped, complete⟩ :=
    takes_of_takePendingConfirmed shaped takenConfirmed
  have sameWindow : confirmed.window = cleared.window := by rw [confirmedEq]; rfl
  have samePending : confirmed.pending = cleared.pending := by rw [confirmedEq]; rfl
  have fromConfirmed {entry : Dest × Coin} (member : entry ∈ confirmedDests.flatten) :
      ∃ index checkpoint, queue.window.item index = some checkpoint ∧
        checkpoint.status = .complete ∧ entry ∈ checkpoint.pending := by
    obtain ⟨index, indexMember, checkpoint, found, waiting⟩ := takes.origin entry member
    obtain ⟨other, otherAt, isComplete⟩ := complete index indexMember
    obtain rfl := Option.some.inj (otherAt.symm.trans found)
    exact ⟨index, other, found, isComplete, waiting⟩
  rcases rest with ⟨noneCompleted, rfl, rfl⟩ | ⟨last, completedDests, read, each, rfl⟩
  · -- Nothing is complete, so the first pass has found nothing to hand out.
    have nothing : confirmedDests.flatten = [] := by
      refine List.eq_nil_iff_forall_not_mem.mpr fun entry member => ?_
      obtain ⟨index, checkpoint, found, isComplete, -⟩ := fromConfirmed member
      obtain ⟨later, laterAt, sameStatus⟩ := takes.item_later found
      rw [← sameWindow] at laterAt
      exact confirmedShaped.not_complete noneCompleted laterAt (sameStatus.trans isComplete)
    refine ⟨?_, by simp, ?_, ?_⟩
    · have conserved := takes.conserved
      rwa [nothing, ← samePending] at conserved
    · intro index checkpoint found
      rw [sameWindow] at found
      exact takes.keeps found
    · intro index checkpoint found isComplete
      exact absurd isComplete (confirmedShaped.not_complete noneCompleted found)
  · have takesCompleted := takes_of_takePending each
    have sameConfirmed : confirmed.confirmedIndex = queue.confirmedIndex := by
      rw [confirmedEq, takes.after_eq]
    have keepsBoth {index : Nat} {checkpoint : Checkpoint}
        (found : confirmed.window.item index = some checkpoint) :
        ∃ earlier, queue.window.item index = some earlier ∧ checkpoint.status = earlier.status ∧
          ∀ entry ∈ checkpoint.pending, entry ∈ earlier.pending := by
      rw [sameWindow] at found
      exact takes.keeps found
    refine ⟨?_, ?_, ?_, ?_⟩
    · rw [List.flatten_append, List.append_assoc]
      refine takes.conserved.trans (List.Perm.append_left _ ?_)
      rw [← samePending]
      exact takesCompleted.conserved
    · intro entry member
      rw [List.flatten_append, List.mem_append] at member
      rcases member with first | second
      · exact fromConfirmed first
      · obtain ⟨index, indexMember, checkpoint, found, waiting⟩ := takesCompleted.origin entry second
        obtain ⟨earlier, earlierAt, sameStatus, earlierWaiting⟩ := keepsBoth found
        have upTo : index ≤ last := by
          rw [List.mem_range'_1] at indexMember
          omega
        have isComplete := (confirmedShaped.complete_iff_le_last read found).mpr upTo
        exact ⟨index, earlier, earlierAt, sameStatus.symm.trans isComplete,
          earlierWaiting entry waiting⟩
    · intro index checkpoint found
      obtain ⟨middle, middleAt, middleStatus, middleWaiting⟩ := takesCompleted.keeps found
      obtain ⟨earlier, earlierAt, earlierStatus, earlierWaiting⟩ := keepsBoth middleAt
      exact ⟨earlier, earlierAt, middleStatus.trans earlierStatus,
        fun entry member => earlierWaiting entry (middleWaiting entry member)⟩
    · intro index checkpoint found isComplete fromIndex
      obtain ⟨middle, middleAt, middleStatus, -⟩ := takesCompleted.keeps found
      have upTo := (confirmedShaped.complete_iff_le_last read middleAt).mp
        (middleStatus.symm.trans isComplete)
      refine takesCompleted.paid ?_ found
      rw [List.mem_range'_1, sameConfirmed]
      omega

end QueueStore

end CwBitcoin
