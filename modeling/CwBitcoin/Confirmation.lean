import CwBitcoin.CallInvariants
import Mathlib.Data.List.Induction

/-!
# The confirmed checkpoint

A proof of confirmation records the index of a checkpoint.  As long as every
checkpoint that is recorded is complete, the recorded index stays below those
of the incomplete checkpoints, and the unconfirmed ones can be counted.
-/

namespace CwBitcoin

namespace QueueStore

/-- The queue has no incomplete checkpoint with this index. -/
def IsComplete (queue : QueueStore) (index : Nat) : Prop :=
  match queue.get index with
  | .ok checkpoint => checkpoint.status = .complete
  | .error _ => True

instance (queue : QueueStore) (index : Nat) : Decidable (queue.IsComplete index) := by
  unfold IsComplete
  split <;> infer_instance

/-- The confirmed checkpoint comes before the one under construction, and is
complete while it is in the queue. -/
structure ConfirmedComplete (queue : QueueStore) : Prop where
  lt_building : ∀ {confirmedIndex}, queue.confirmedIndex = some confirmedIndex →
    confirmedIndex < queue.buildingIndex
  complete : ∀ {confirmedIndex checkpoint}, queue.confirmedIndex = some confirmedIndex →
    queue.window.item confirmedIndex = some checkpoint → checkpoint.status = .complete

variable {queue : QueueStore} {index : Nat} {checkpoint replacement : Checkpoint}
  {older : List Checkpoint}

theorem ConfirmedComplete.put (confirmed : queue.ConfirmedComplete)
    (found : queue.window.item index = some checkpoint)
    (status : replacement.status = checkpoint.status ∨ replacement.status = .complete) :
    (queue.put index replacement).ConfirmedComplete where
  lt_building := confirmed.lt_building
  complete := by
    intro confirmedIndex current isConfirmed currentAt
    rw [window_put, Window.item_put found] at currentAt
    split at currentAt
    · rename_i same
      obtain rfl := Option.some.inj currentAt
      rcases status with sameStatus | isComplete
      · rw [sameStatus]
        exact confirmed.complete isConfirmed (same ▸ found)
      · exact isComplete
    · exact confirmed.complete isConfirmed currentAt

theorem ConfirmedComplete.replaceBuilding (confirmed : queue.ConfirmedComplete)
    (ordered : queue.Ordered) (split : queue.checkpoints = older ++ [checkpoint])
    (status_eq : replacement.status = checkpoint.status) :
    ConfirmedComplete { queue with checkpoints := older ++ [replacement] } := by
  rw [← put_building ordered.aligned split]
  exact confirmed.put (ordered.item_building split) (Or.inl status_eq)

/-- The confirmed index is not above that of the last completed checkpoint. -/
theorem ConfirmedComplete.le_lastCompletedIndex (confirmed : queue.ConfirmedComplete)
    (shaped : queue.Shaped) {confirmedIndex : Nat}
    (isConfirmed : queue.confirmedIndex = some confirmedIndex) :
    ∃ last, queue.lastCompletedIndex = .ok last ∧ confirmedIndex ≤ last := by
  have below := confirmed.lt_building isConfirmed
  cases shaped with
  | empty checkpoints_eq buildingIndex_eq => omega
  | ordered ordered =>
      obtain ⟨signingFound, readSigning⟩ := (Shaped.ordered ordered).exists_signing
      have offset : confirmedIndex + (if signingFound.isSome then 2 else 1) ≤
          queue.buildingIndex := by
        by_cases pruned : confirmedIndex < queue.window.first
        · -- The checkpoint that waits for signatures is not pruned either.
          rcases signing_eq_ok readSigning with ⟨-, rfl⟩ | ⟨second, -, positive, secondAt, -⟩
          · exact below
          · have lower := Window.first_le_of_item secondAt
            split <;> omega
        · obtain ⟨checkpoint, found⟩ := Window.exists_item ordered.aligned.window
            (Nat.le_of_not_lt pruned) below.le
          exact (ordered.complete_iff readSigning found).mp (confirmed.complete isConfirmed found)
      refine ⟨queue.buildingIndex - if signingFound.isSome then 2 else 1, ?_, by omega⟩
      rw [lastCompletedIndex_eq readSigning, if_pos (by omega)]

/-- The unconfirmed checkpoints can be counted. -/
theorem ConfirmedComplete.exists_numUnconfirmed (confirmed : queue.ConfirmedComplete)
    (shaped : queue.Shaped) : ∃ count, queue.numUnconfirmed = .ok count := by
  obtain ⟨signingFound, readSigning⟩ := shaped.exists_signing
  have offsetEq : (if signingFound.isSome then 2 else 1) =
      1 + if signingFound.isSome then 1 else 0 := by
    split <;> rfl
  by_cases few : queue.buildingIndex < 1 + if signingFound.isSome then 1 else 0
  · exact ⟨0, by simp [numUnconfirmed, readSigning, few, bind, Except.bind, pure, Except.pure]⟩
  · simp only [numUnconfirmed, Outcome.bind_eq_ok]
    cases isConfirmed : queue.confirmedIndex with
    | some confirmedIndex =>
        obtain ⟨last, read, upper⟩ := confirmed.le_lastCompletedIndex shaped isConfirmed
        rw [lastCompletedIndex_eq readSigning, if_pos (by omega)] at read
        obtain rfl := Except.ok.inj read
        refine ⟨queue.buildingIndex - (1 + if signingFound.isSome then 1 else 0) - confirmedIndex,
          signingFound, readSigning, ?_⟩
        rw [if_neg few]
        exact Outcome.checkedSub_eq_ok.mpr ⟨by omega, rfl⟩
    | none =>
        refine ⟨queue.checkpoints.length - 1 - if signingFound.isSome then 1 else 0,
          signingFound, readSigning, ?_⟩
        rw [if_neg few]
        refine Outcome.bind_eq_ok.mpr ⟨queue.checkpoints.length - 1,
          Outcome.checkedSub_eq_ok.mpr ⟨?_, rfl⟩, Outcome.checkedSub_eq_ok.mpr ⟨?_, rfl⟩⟩
        · cases shaped with
          | empty checkpoints_eq buildingIndex_eq => omega
          | ordered ordered => exact List.length_pos_iff.mpr ordered.nonempty
        · rcases signing_eq_ok readSigning with ⟨-, rfl⟩ | ⟨second, -, positive, secondAt, -⟩
          · simp
          · have lower := Window.first_le_of_item secondAt
            have lengthEq := (shaped.ordered_of_item secondAt).length_eq
            split <;> omega

end QueueStore

namespace Contract

/-- A call that proves the confirmation of a checkpoint names a complete one. -/
def ConfirmsCompleted (store : Store) (call : Call) : Prop :=
  ∀ cpIndex ∈ call.confirmation, store.queue.IsComplete cpIndex

instance (store : Store) (call : Call) : Decidable (ConfirmsCompleted store call) :=
  inferInstanceAs (Decidable (∀ cpIndex ∈ call.confirmation, _))

variable {host : Host} {store after : Store} {call : Call}

theorem preserves_confirmedComplete (shaped : store.queue.Shaped)
    (confirmed : store.queue.ConfirmedComplete) (permitted : ConfirmsCompleted store call) :
    Preserves host store call QueueStore.ConfirmedComplete where
  credited := by
    intro deposit after _ credited
    rw [credited.after_eq]
    exact confirmed.replaceBuilding (shaped.ordered_of_split credited.checkpoints_eq)
      credited.checkpoints_eq rfl
  withdrawn := by
    intro queue after queueShaped queueConfirmed withdrawn
    rw [withdrawn.after_eq]
    exact queueConfirmed.replaceBuilding (queueShaped.ordered_of_split withdrawn.checkpoints_eq)
      withdrawn.checkpoints_eq rfl
  signed := by
    intro signature after _ signed
    obtain ⟨checkpoint, signedCheckpoint, got, -, -, -, status, rfl⟩ := QueueStore.sign_eq_ok signed
    exact confirmed.put (QueueStore.get_eq_ok.mp got).2 status
  confirmed := by
    intro cpIndex checkpoint isConfirmation got _
    obtain ⟨-, found⟩ := QueueStore.get_eq_ok.mp got
    have ordered := shaped.ordered_of_item found
    have isComplete : checkpoint.status = .complete := by
      have allowed := permitted cpIndex isConfirmation
      rwa [QueueStore.IsComplete, got] at allowed
    have upper : cpIndex ≤ store.queue.buildingIndex :=
      Window.le_last_of_item ordered.aligned.window found
    constructor
    · intro confirmedIndex isConfirmed
      obtain rfl := Option.some.inj isConfirmed
      rcases Nat.lt_or_eq_of_le upper with before | rfl
      · exact before
      · have isBuilding : checkpoint.status = .building := ordered.last found
        simp [isBuilding] at isComplete
    · intro confirmedIndex other isConfirmed otherAt
      obtain rfl := Option.some.inj isConfirmed
      obtain rfl := Option.some.inj (found.symm.trans otherAt)
      exact isComplete
  paidOut := by
    intro queue index checkpoint _ queueConfirmed got
    exact queueConfirmed.put (QueueStore.get_eq_ok.mp got).2 (Or.inl rfl)
  handled := fun holds => ⟨holds.lt_building, holds.complete⟩
  started := by
    intro before after holds first
    have none_before {confirmedIndex : Nat}
        (isConfirmed : before.queue.confirmedIndex = some confirmedIndex) : False := by
      have below := holds.lt_building isConfirmed
      rw [first.buildingIndex_eq] at below
      omega
    have same := first.confirmedIndex_after
    constructor
    · intro confirmedIndex isConfirmed
      exact (none_before (same ▸ isConfirmed)).elim
    · intro confirmedIndex checkpoint isConfirmed _
      exact (none_before (same ▸ isConfirmed)).elim
  rolled := by
    intro hash dests unitsPerSat queue after _ _ _ _ holds rollover
    have same : after.queue.confirmedIndex = queue.confirmedIndex := rollover.confirmedIndex_after
    constructor
    · intro confirmedIndex isConfirmed
      have below := holds.lt_building (same ▸ isConfirmed)
      rw [rollover.buildingIndex_after]
      exact Nat.lt_succ_of_lt below
    · intro confirmedIndex checkpoint isConfirmed found
      have below := holds.lt_building (same ▸ isConfirmed)
      have sameIndex : ({ store with queue } : Store).queue.buildingIndex = queue.buildingIndex := rfl
      rcases rollover.item_after_cases found with ⟨rfl, -⟩ | ⟨rfl, -⟩ | ⟨-, oldAt⟩
      · omega
      · omega
      · exact holds.complete (same ▸ isConfirmed) oldAt

/-- A call leaves the confirmed index, or records a later one that it names. -/
theorem Effect.confirmedIndex (effect : Effect host store call after)
    (shaped : store.queue.Shaped) :
    after.queue.confirmedIndex = store.queue.confirmedIndex ∨
      ∃ cpIndex checkpoint, call.confirmation = some cpIndex ∧
        store.queue.get cpIndex = .ok checkpoint ∧
        (∀ confIndex ∈ store.queue.confirmedIndex, confIndex < cpIndex) ∧
        after.queue.confirmedIndex = some cpIndex := by
  have kept : Preserves host store call fun queue =>
      queue.confirmedIndex = store.queue.confirmedIndex ∨
        ∃ cpIndex checkpoint, call.confirmation = some cpIndex ∧
          store.queue.get cpIndex = .ok checkpoint ∧
          (∀ confIndex ∈ store.queue.confirmedIndex, confIndex < cpIndex) ∧
          queue.confirmedIndex = some cpIndex := by
    constructor
    · intro deposit after _ credited
      rw [credited.after_eq]
      exact Or.inl rfl
    · intro queue after _ holds withdrawn
      rw [withdrawn.after_eq]
      exact holds
    · intro signature after _ signed
      obtain ⟨_, _, -, -, -, -, -, rfl⟩ := QueueStore.sign_eq_ok signed
      exact Or.inl rfl
    · intro cpIndex checkpoint isConfirmation got later
      exact Or.inr ⟨cpIndex, checkpoint, isConfirmation, got, later, rfl⟩
    · intro queue index checkpoint _ holds _
      exact holds
    · intro queue next holds
      exact holds
    · intro before after holds first
      rwa [first.confirmedIndex_after]
    · intro hash dests unitsPerSat queue after _ _ _ _ holds rollover
      rwa [rollover.confirmedIndex_after]
  exact effect.preserves shaped kept (Or.inl rfl)

/-- A confirmed index was recorded by a call that named it. -/
theorem exists_confirmation {start : Store} (shaped : start.queue.Shaped)
    (unconfirmed : start.queue.confirmedIndex = none) {calls : List Call} {index : Nat}
    (isConfirmed : ((machine host).run start calls).queue.confirmedIndex = some index) :
    ∃ earlier call later after checkpoint, calls = earlier ++ call :: later ∧
      (machine host).call ((machine host).run start earlier) call = .ok after ∧
      call.confirmation = some index ∧ after.queue.confirmedIndex = some index ∧
      ((machine host).run start earlier).queue.get index = .ok checkpoint := by
  -- The last call either left the index, or has recorded it.
  induction calls using List.reverseRecOn with
  | nil => simp [unconfirmed] at isConfirmed
  | append_singleton calls call ih =>
      rw [CallMachine.run_append] at isConfirmed
      have kept : ((machine host).run start calls).queue.confirmedIndex = some index →
          ∃ earlier other later after checkpoint, calls ++ [call] = earlier ++ other :: later ∧
            (machine host).call ((machine host).run start earlier) other = .ok after ∧
            other.confirmation = some index ∧ after.queue.confirmedIndex = some index ∧
            ((machine host).run start earlier).queue.get index = .ok checkpoint := by
        intro before
        obtain ⟨earlier, other, later, after, checkpoint, rfl, facts⟩ := ih before
        exact ⟨earlier, other, later ++ [call], after, checkpoint, by simp, facts⟩
      refine CallMachine.next_invariant (fun store : Store =>
        store.queue.confirmedIndex = some index → _) ?_ kept isConfirmed
      intro after called isAfter
      rcases (effect_of_call called).confirmedIndex (shaped_run shaped calls) with same |
        ⟨cpIndex, checkpoint, names, got, -, recorded⟩
      · exact kept (same ▸ isAfter)
      · obtain rfl := Option.some.inj (recorded.symm.trans isAfter)
        exact ⟨calls, call, [], after, checkpoint, rfl, called, names, isAfter, got⟩

/-- The confirmed index only increases. -/
theorem confirmedIndex_mono {start : Store} (shaped : start.queue.Shaped) {index : Nat}
    (isConfirmed : start.queue.confirmedIndex = some index) (calls : List Call) :
    ∃ later, ((machine host).run start calls).queue.confirmedIndex = some later ∧
      index ≤ later := by
  suffices ((machine host).run start calls).queue.Shaped ∧
      ∃ later, ((machine host).run start calls).queue.confirmedIndex = some later ∧
        index ≤ later from this.2
  apply CallMachine.run_invariant_all fun store : Store => store.queue.Shaped ∧
    ∃ later, store.queue.confirmedIndex = some later ∧ index ≤ later
  · rintro store call after ⟨storeShaped, current, isCurrent, order⟩ called
    have effect := effect_of_call called
    refine ⟨effect.shaped storeShaped, ?_⟩
    rcases effect.confirmedIndex storeShaped with same | ⟨cpIndex, -, -, -, later, recorded⟩
    · exact ⟨current, same.trans isCurrent, order⟩
    · exact ⟨cpIndex, recorded, order.trans (later current isCurrent).le⟩
  · exact ⟨shaped, index, isConfirmed, le_rfl⟩

end Contract

/-- In every run whose proofs of confirmation name complete checkpoints, the
confirmed index was recorded for a complete checkpoint, only increases and is
not above the last completed index, and the unconfirmed checkpoints can be
counted. -/
theorem Contract.run_confirmed_complete (host : Host) (info : MessageInfo) (msg : InstantiateMsg)
    (calls more : List Call)
    (permitted : (machine host).Permitted ((machine host).OnSuccess ConfirmsCompleted)
      (instantiate host info msg) calls) :
    (∀ index,
      ((machine host).run (instantiate host info msg) calls).queue.confirmedIndex = some index →
        (∃ earlier call later after checkpoint, calls = earlier ++ call :: later ∧
          (machine host).call ((machine host).run (instantiate host info msg) earlier) call =
            .ok after ∧
          call.confirmation = some index ∧ after.queue.confirmedIndex = some index ∧
          ((machine host).run (instantiate host info msg) earlier).queue.get index =
            .ok checkpoint ∧ checkpoint.status = .complete) ∧
        (∃ last, ((machine host).run (instantiate host info msg) calls).queue.lastCompletedIndex =
          .ok last ∧ index ≤ last) ∧
        ∃ later, ((machine host).run (instantiate host info msg)
          (calls ++ more)).queue.confirmedIndex = some later ∧ index ≤ later) ∧
    ∃ count, ((machine host).run (instantiate host info msg) calls).queue.numUnconfirmed =
      .ok count := by
  have start : (instantiate host info msg).queue.ConfirmedComplete := ⟨nofun, nofun⟩
  obtain ⟨shaped, confirmed⟩ := run_preserves QueueStore.ConfirmedComplete
    (fun _ _ shaped confirmed allowed => preserves_confirmedComplete shaped confirmed allowed)
    (.empty rfl rfl) start permitted
  refine ⟨fun index isConfirmed => ⟨?_, confirmed.le_lastCompletedIndex shaped isConfirmed, ?_⟩,
    confirmed.exists_numUnconfirmed shaped⟩
  · obtain ⟨earlier, call, later, after, checkpoint, rfl, called, names, recorded, got⟩ :=
      exists_confirmation (.empty rfl rfl) rfl isConfirmed
    have allowed := (CallMachine.permitted_append.mp permitted).2.1 after called index names
    rw [QueueStore.IsComplete, got] at allowed
    exact ⟨earlier, call, later, after, checkpoint, rfl, called, names, recorded, got, allowed⟩
  · rw [CallMachine.run_append]
    exact confirmedIndex_mono shaped isConfirmed more

namespace Sample

/-- The transaction of the checkpoint with the given index enters a block, and
its confirmation is relayed. -/
def confirmCalls (calls : List Contract.Call) (index : Nat) : List Contract.Call :=
  let txid := (checkpointAt ((Contract.machine host).run initial calls) index).mainTx.skeleton.txid host
  calls ++ [
    executeAt 1420 (.updateHeaderConfig (blockOf txid)),
    executeAt 1430 (.relayCheckpoint 7 (proofOf txid) index)]

end Sample

theorem Contract.run_confirmed_complete_sample :
    let calls := Sample.confirmCalls (Sample.setupCalls ++ [Sample.signFirst]) 0
    let store := (machine Sample.host).run Sample.initial calls
    store.queue.confirmedIndex = some 0 ∧
      ∃ last, store.queue.lastCompletedIndex = .ok last ∧ 0 ≤ last := by
  intro calls store
  have isConfirmed : store.queue.confirmedIndex = some 0 := by decide +kernel
  refine ⟨isConfirmed, ?_⟩
  exact ((run_confirmed_complete Sample.host Sample.info Sample.instantiateMsg calls []
    (by decide +kernel)).1 0 (by decide +kernel)).2.1

/-- Nothing keeps a proof from naming the checkpoint under construction, and
then the unconfirmed checkpoints cannot be counted. -/
theorem Contract.run_confirmed_building :
    let calls := Sample.confirmCalls (Sample.setupCalls ++ [Sample.signFirst]) 1
    let store := (machine Sample.host).run Sample.initial calls
    store.queue.confirmedIndex = some 1 ∧ (Sample.checkpointAt store 1).status = .building ∧
      store.queue.lastCompletedIndex = .ok 0 ∧ store.queue.numUnconfirmed = .error .panic := by
  intro calls store
  exact ⟨by decide +kernel, by decide +kernel, by decide +kernel, by decide +kernel⟩

end CwBitcoin
