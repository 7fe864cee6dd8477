import CwBitcoin.PushAgreement
import CwBitcoin.WritesInPlace

/-!
# After the first prune

Once a push has dropped a checkpoint, the raw keys of positions are no longer those of the
elements, and no write reaches the last checkpoint.  It stays as it was pushed, whatever
is accepted for it, and it never has the reserve for another push.
-/

namespace CwBitcoin

/-- A write in range misses the last element once the head has moved. -/
theorem DequeSet.exists_write_rawKey {α : Type} {older : List α} {head position : Nat}
    (moved : 0 < head) (inRange : position ≤ older.length) (last value : α) :
    ∃ others, others.length = older.length ∧
      DequeSet.rawKey.write (older ++ [last]) head position value = others ++ [last] := by
  by_cases below : position < head
  · exact ⟨older, rfl, if_pos below⟩
  · refine ⟨older.set (position - head) value, List.length_set, ?_⟩
    rw [write, if_neg below, List.set_append_left _ _ (by omega)]

/-- A checkpoint under construction to which nothing has been added. -/
def Checkpoint.Untouched (checkpoint : Checkpoint) : Prop :=
  ∃ sigset depositsEnabled, checkpoint = { Checkpoint.new sigset with depositsEnabled }

theorem Checkpoint.Untouched.mainTx_eq {checkpoint : Checkpoint}
    (untouched : checkpoint.Untouched) : checkpoint.mainTx = BitcoinTx.default := by
  obtain ⟨sigset, depositsEnabled, rfl⟩ := untouched
  rfl

theorem Checkpoint.Untouched.feeRate_eq {checkpoint : Checkpoint}
    (untouched : checkpoint.Untouched) : checkpoint.feeRate = DEFAULT_FEE_RATE := by
  obtain ⟨sigset, depositsEnabled, rfl⟩ := untouched
  rfl

/-- A size estimate is not below the size of the transaction that it counts. -/
theorem Checkpoint.estVsize_pos {host : Host} {checkpoint : Checkpoint} {config : CheckpointConfig}
    {commitment : Bytes} {vsize : Nat} (positive : ∀ tx, 0 < host.vsize tx)
    (estimated : checkpoint.estVsize host config commitment = .ok vsize) : 0 < vsize := by
  simp only [estVsize, Outcome.bind_eq_ok, Outcome.checkedAdd_eq_ok] at estimated
  obtain ⟨tx, -, bitcoinTx, -, outs, -, witnesses, -, -, rfl⟩ := estimated
  exact Nat.add_pos_left (positive _) _

namespace QueueStore

/-- Checkpoints have been dropped, and the given one is read as the last. -/
structure Stalled (queue : QueueStore) (index : Nat) (last : Checkpoint) : Prop where
  moved : 0 < queue.head
  buildingIndex_eq : queue.buildingIndex = index
  building_eq : queue.building = .ok last

variable {host : Host} {queue after : QueueStore} {index : Nat} {last : Checkpoint}

/-- A queue that is pruned is left without the checkpoints that were read at its head. -/
theorem stalled_of_prune {config : CheckpointConfig} {older : List Checkpoint}
    (aligned : queue.Aligned) (split : queue.checkpoints = older ++ [last])
    (pruned : queue.prune config = .ok after)
    (outdated : ¬ Recent queue.checkpoints last.createTime config.maxAge) :
    after.Stalled queue.buildingIndex last := by
  have recent : Recent after.checkpoints last.createTime config.maxAge := by
    simp only [prune, building_eq_ok.mpr ⟨aligned, older, split⟩, Outcome.ok_bind,
      Outcome.bind_eq_ok, Outcome.pure_eq_ok] at pruned
    obtain ⟨checkpoints, prunedOk, rfl⟩ := pruned
    exact recent_of_pruneCheckpoints prunedOk
  obtain ⟨count, rfl, enough, -⟩ := prune_eq_ok split pruned
  have dropped : 0 < count := by
    apply Nat.pos_of_ne_zero
    rintro rfl
    exact outdated recent
  rw [split, List.length_append, List.length_singleton] at enough
  refine ⟨Nat.add_pos_right _ dropped, rfl, building_eq_ok.mpr ⟨⟨aligned.fits, ?_⟩,
    older.drop count, ?_⟩⟩
  · have window := aligned.window
    simp only [QueueStore.window, Window.Aligned, List.length_drop] at window ⊢
    omega
  · rw [split, List.drop_append_of_le_length (by omega)]

theorem Stalled.set {cpIndex : Nat} {checkpoint : Checkpoint} (stalled : queue.Stalled index last)
    (wrote : queue.set cpIndex checkpoint .rawKey = .ok after) : after.Stalled index last := by
  obtain ⟨aligned, older, split⟩ := building_eq_ok.mp stalled.building_eq
  simp only [QueueStore.set, Outcome.bind_eq_ok, getDequeIndex_eq_ok, Outcome.pure_eq_ok] at wrote
  obtain ⟨position, ⟨-, -, upper, lower, rfl⟩, rfl⟩ := wrote
  rw [split, List.length_append, List.length_singleton] at lower
  have inRange : cpIndex - (queue.buildingIndex + 1 - (older.length + 1)) ≤ older.length := by
    omega
  obtain ⟨others, sameLength, written⟩ :=
    DequeSet.exists_write_rawKey stalled.moved inRange last checkpoint
  refine ⟨stalled.moved, stalled.buildingIndex_eq, ?_⟩
  rw [split, List.length_append, List.length_singleton, written]
  refine building_eq_ok.mpr ⟨⟨aligned.fits, ?_⟩, others, rfl⟩
  have enough := aligned.window
  simp only [window, Window.Aligned, split, List.length_append, List.length_singleton] at enough ⊢
  omega

theorem Stalled.sign {xpub : Xpub} {sigs : List Signature} {cpIndex btcHeight : Nat}
    (stalled : queue.Stalled index last)
    (signed : queue.sign host xpub sigs cpIndex btcHeight .rawKey = .ok after) :
    after.Stalled index last := by
  simp only [QueueStore.sign, Outcome.bind_eq_ok] at signed
  obtain ⟨checkpoint, -, -, -, signedCheckpoint, -, wrote⟩ := signed
  exact stalled.set wrote

theorem Stalled.withConfirmed (stalled : queue.Stalled index last) (cpIndex : Nat) :
    ({ queue with confirmedIndex := some cpIndex } : QueueStore).Stalled index last :=
  ⟨stalled.moved, stalled.buildingIndex_eq, stalled.building_eq⟩

theorem Stalled.takePendingCompleted {dests : Payouts} (stalled : queue.Stalled index last)
    (taken : queue.takePendingCompleted .rawKey = .ok (after, dests)) :
    after.Stalled index last := by
  refine takePendingCompleted_write (fun current => current.Stalled index last) ?_ ?_ stalled taken
  · intro current cpIndex checkpoint next currentStalled _ wrote
    exact currentStalled.set wrote
  · intro current next currentStalled
    exact ⟨currentStalled.moved, currentStalled.buildingIndex_eq, currentStalled.building_eq⟩

end QueueStore

namespace Store

variable {host : Host} {env : Env} {store after : Store} {index : Nat} {last : Checkpoint}
  {commitment : Bytes} {btcHeight : Nat}

section Writes

variable (stalled : store.queue.Stalled index last)

include stalled

theorem stalled_giveMinerFee {amount : Nat}
    (gave : store.giveMinerFee amount .rawKey = .ok after) : after.queue.Stalled index last := by
  simp only [giveMinerFee, Outcome.bind_eq_ok, Outcome.pure_eq_ok] at gave
  obtain ⟨feePool, -, checkpoint, -, fee, -, collected, -, queue, wrote, rfl⟩ := gave
  exact stalled.set wrote

theorem stalled_creditDeposit {input : Input} {feeRate : Nat} {dest : Dest}
    (credited : store.creditDeposit input feeRate dest .rawKey = .ok after) :
    after.queue.Stalled index last := by
  simp only [creditDeposit, Outcome.bind_eq_ok, Outcome.pure_eq_ok] at credited
  obtain ⟨_, -, _, -, _, -, _, -, -, -, paid, gave, building, -, checkpointTx, -, queue, wrote,
    rfl⟩ := credited
  exact (stalled_giveMinerFee stalled gave).set wrote

theorem stalled_relayDeposit {btcTx : Transaction} {btcHeight btcVout sigsetIndex : Nat}
    {btcProof : PartialMerkleTree} {dest : Dest}
    (relayed : store.relayDeposit host env btcTx btcHeight btcProof btcVout sigsetIndex dest
      .rawKey = .ok after) : after.queue.Stalled index last := by
  simp only [relayDeposit, Outcome.bind_eq_ok, Outcome.require_eq_ok] at relayed
  obtain ⟨_, -, -, -, _, -, _, -, _, -, -, -, -, -, _, -, -, -, relayed⟩ := relayed
  split at relayed
  · simp only [Outcome.bind_eq_ok, Outcome.pure_eq_ok] at relayed
    obtain ⟨building, -, recoveryTxs, -, rfl⟩ := relayed
    exact stalled
  · simp only [Outcome.bind_eq_ok] at relayed
    obtain ⟨input, -, credited⟩ := relayed
    exact stalled_creditDeposit (by exact stalled) credited

theorem stalled_addWithdrawal {scriptPubkey : Script} {amount : Nat}
    (added : store.addWithdrawal host scriptPubkey amount .rawKey = .ok after) :
    after.queue.Stalled index last := by
  simp only [addWithdrawal, Outcome.bind_eq_ok, Outcome.pure_eq_ok] at added
  obtain ⟨-, -, -, -, _, -, _, -, -, -, paid, gave, _, -, -, -, _, -, _, -, queue, wrote, rfl⟩ :=
    added
  exact (stalled_giveMinerFee stalled gave).set wrote

end Writes

/-- A checkpoint without inputs has no reserve to pay for itself. -/
theorem not_shouldPush_of_untouched (positive : ∀ tx, 0 < host.vsize tx)
    (read : store.queue.building = .ok last) (untouched : last.Untouched) :
    store.shouldPush host env commitment btcHeight ≠ .ok true := by
  intro should
  obtain ⟨-, older, split⟩ := QueueStore.building_eq_ok.mp read
  obtain ⟨-, ready, -, -⟩ := shouldPush_eq_ok should
  obtain ⟨building, fee, inAmount, outAmount, readAgain, charged, totals, covered⟩ :=
    buildingReady_eq_ok (ready (by simp [split]))
  obtain rfl : last = building := Except.ok.inj (read.symm.trans readAgain)
  obtain ⟨first, -, -⟩ := QueueStore.estimated_of_calcFeeCheckpoint read charged
  obtain ⟨inEq, -, -⟩ := Checkpoint.calcTotalInputAndOutput_eq_ok first totals
  have noInputs : inAmount = 0 := by simpa [untouched.mainTx_eq, BitcoinTx.default] using inEq
  obtain ⟨vsize, estimated, feeCovers⟩ := QueueStore.baseFee_le_calcFeeCheckpoint read charged
  have vsizePos := Checkpoint.estVsize_pos positive estimated
  rw [untouched.feeRate_eq, DEFAULT_FEE_RATE] at feeCovers
  omega

theorem prunesNothing_of_recent
    (recent : QueueStore.Recent (store.queue.checkpoints ++ [last]) env.seconds
      store.checkpointConfig.maxAge) : store.PrunesNothing env := by
  apply recent.imp
  · intro few
    rw [List.length_append, List.length_singleton] at few
    omega
  · intro young oldest isOldest
    apply young oldest
    rw [List.head?_append, isOldest, Option.some_or]
    rfl

/-- A push that prunes makes the raw keys of positions differ from those that are read.  The
checkpoint that it pushes stays as it is. -/
theorem stalled_of_maybeStep {shouldAllowDeposits pushed : Bool} {config : BitcoinConfig}
    (atZero : store.queue.head = 0) (prunes : ¬ store.PrunesNothing env)
    (should : store.shouldPush host env commitment btcHeight = .ok true)
    (stepped : store.maybeStep host env btcHeight shouldAllowDeposits commitment config .rawKey =
      .ok (after, pushed)) :
    ∃ index last, last.Untouched ∧ after.queue.Stalled index last := by
  simp only [maybeStep, maybePush_rawKey atZero, should, Outcome.ok_bind, Bool.true_eq_false,
    if_false, Outcome.bind_eq_ok] at stepped
  obtain ⟨⟨pushedStore, newest⟩, push, stepped⟩ := stepped
  obtain ⟨index, sigset, -, built, isSome, aligned, rfl⟩ :=
    maybePush_eq_ok (ready_of_shouldPush should) push
  obtain ⟨last, isLast⟩ : ∃ last, last =
    { Checkpoint.new sigset with depositsEnabled := shouldAllowDeposits } := ⟨_, rfl⟩
  have latest : last.createTime = env.seconds := by
    rw [isLast]
    exact (SignatorySet.fromValidatorCtx_index built).1
  rw [← isLast] at aligned stepped
  refine ⟨index, last, ⟨sigset, shouldAllowDeposits, isLast⟩, ?_⟩
  have outdated : ¬ QueueStore.Recent (store.queue.checkpoints ++ [last]) last.createTime
      store.checkpointConfig.maxAge := by
    rw [latest]
    exact prunes ∘ prunesNothing_of_recent
  split at stepped
  · rename_i isNone
    exact absurd isSome (by simpa using isNone)
  · obtain ⟨queue, pruneOk, stepped⟩ := Outcome.bind_eq_ok.mp stepped
    have stalled := QueueStore.stalled_of_prune aligned rfl pruneOk outdated
    split at stepped
    · obtain ⟨rfl, -⟩ := Prod.mk.inj (Outcome.pure_eq_ok.mp stepped)
      exact stalled
    · simp only [Outcome.bind_eq_ok, Outcome.pure_eq_ok, Prod.exists, Prod.mk.injEq] at stepped
      obtain ⟨_, -, prev, -, frozen, advanced, -, frozenQueue, wrote, _, -, _, -, _, -, building, -,
        filled, -, final, wroteFilled, rfl, -⟩ := stepped
      exact (stalled.set wrote).set wroteFilled

end Store

namespace Contract

variable {host : Host} {store after : Store} {call : Call} {index : Nat} {last : Checkpoint}

/-- The queue after the end of a block is that of the step. -/
theorem exists_maybeStep_of_blockHash {deque : DequeSet} {hash : Bytes}
    (isClock : call.blockHash = some hash)
    (called : (machine host deque).call store call = .ok after) :
    ∃ queue dests shouldAllowDeposits stepped pushed,
      store.queue.takePendingCompleted deque = .ok (queue, dests) ∧
      Store.maybeStep host call.env { store with queue } (HeaderQueue.height store.headers)
        shouldAllowDeposits hash store.bitcoinConfig deque = .ok (stepped, pushed) ∧
      after.queue = stepped.queue := by
  obtain ⟨response, executed, rfl⟩ := executed_of_machine called
  cases executed with
  | triggerBeginBlock _ _ _ _ clocked | clockEndBlock _ _ _ clocked =>
      obtain rfl := Option.some.inj isClock
      obtain ⟨queue, dests, allow, stepped, pushed, taken, steppedOk, same⟩ :=
        exists_maybeStep_of_clockEndBlock clocked
      exact ⟨queue, dests, allow, stepped, pushed, taken, steppedOk, same.queue_eq⟩
  | _ => cases isClock

/-- No call reaches a checkpoint to which nothing has been added since the first prune. -/
theorem stalled_call (positive : ∀ tx, 0 < host.vsize tx) (untouched : last.Untouched)
    (stalled : store.queue.Stalled index last)
    (called : (machine host .rawKey).call store call = .ok after) :
    after.queue.Stalled index last := by
  cases isClock : call.blockHash with
  | some hash =>
      obtain ⟨queue, dests, allow, stepped, pushed, taken, steppedOk, queueEq⟩ :=
        exists_maybeStep_of_blockHash isClock called
      have clearedStalled : queue.Stalled index last := stalled.takePendingCompleted taken
      obtain rfl := Store.eq_of_maybeStep
        (Store.not_shouldPush_of_untouched positive clearedStalled.building_eq untouched) steppedOk
      rwa [queueEq]
  | none =>
      obtain ⟨response, executed, rfl⟩ := executed_of_machine called
      cases executed with
      | relayDeposit _ _ _ _ _ _ _ _ _ relayed => exact Store.stalled_relayDeposit stalled relayed
      | relayCheckpoint _ _ _ _ _ cpIndex relayed =>
          obtain ⟨-, -, rfl⟩ := Store.relayCheckpoint_eq_ok relayed
          exact stalled.withConfirmed cpIndex
      | withdrawToBitcoin _ _ _ _ _ _ added =>
          exact addWithdrawals_invariant (fun current => current.queue.Stalled index last)
            (fun _ _ _ currentStalled addedOne =>
              Store.stalled_addWithdrawal currentStalled addedOne) stalled added
      | submitCheckpointSignature _ _ _ _ _ _ _ signed => exact stalled.sign signed
      | addValidators => rwa [(outsideRegistry_saveValidators _).sameBridge.queue_eq]
      | setSignatoryKey _ _ _ _ saved =>
          rwa [(outsideRegistry_setSignatoryKey saved).sameBridge.queue_eq]
      | triggerBeginBlock | clockEndBlock => cases isClock
      | _ => exact stalled

/-- Until the first prune nothing has been dropped, and from then on nothing is pushed. -/
def Dropped (queue : QueueStore) : Prop :=
  (queue.Shaped ∧ queue.head = 0) ∨ ∃ index last, last.Untouched ∧ queue.Stalled index last

theorem dropped_call (positive : ∀ tx, 0 < host.vsize tx) (dropped : Dropped store.queue)
    (called : (machine host .rawKey).call store call = .ok after) : Dropped after.queue := by
  obtain ⟨shaped, atZero⟩ | ⟨index, last, untouched, stalled⟩ := dropped
  · by_cases nothing : Pushes host store call → store.PrunesNothing call.env
    · rw [call_rawKey atZero nothing] at called
      have effect := effect_of_call called
      exact Or.inl ⟨effect.shaped shaped,
        effect.preserves shaped (preserves_head nothing atZero) atZero⟩
    · right
      obtain ⟨pushes, prunes⟩ := Classical.not_imp.mp nothing
      obtain ⟨hash, queue, dests, isClock, taken, should⟩ := pushes_iff.mp pushes
      obtain ⟨sameQueue, sameDests, allow, stepped, pushed, takenAgain, steppedOk, queueEq⟩ :=
        exists_maybeStep_of_blockHash isClock called
      rw [QueueStore.takePendingCompleted_rawKey atZero, taken] at takenAgain
      obtain ⟨rfl, rfl⟩ := Prod.mk.inj (Except.ok.inj takenAgain)
      have queueZero : queue.head = 0 := (QueueStore.head_takePendingCompleted taken).trans atZero
      have queuePrunes : ¬ Store.PrunesNothing { store with queue } call.env := by
        have sameTimes := QueueStore.createTimes_takePendingCompleted taken
        exact fun queueNothing => prunes (queueNothing.congr sameTimes.symm rfl)
      rw [queueEq]
      exact Store.stalled_of_maybeStep queueZero queuePrunes should steppedOk
  · exact Or.inr ⟨index, last, untouched, stalled_call positive untouched stalled called⟩

/-- In every run of the source, from the first prune on the checkpoint under construction stays
as it was pushed, and no further one is pushed. -/
theorem run_stalled (host : Host) (positive : ∀ tx, 0 < host.vsize tx) (info : MessageInfo)
    (msg : InstantiateMsg) (calls later : List Call) :
    let pruned := (machine host .rawKey).run (instantiate host info msg) calls
    let after := (machine host .rawKey).run pruned later
    0 < pruned.queue.head →
      ∃ last : Checkpoint, last.Untouched ∧ pruned.queue.building = .ok last ∧
        after.queue.building = .ok last ∧
        after.queue.buildingIndex = pruned.queue.buildingIndex ∧
        ∀ env commitment btcHeight,
          after.shouldPush host env commitment btcHeight ≠ .ok true := by
  intro pruned after moved
  have dropped : Dropped pruned.queue :=
    (machine host .rawKey).run_invariant_all (fun store => Dropped store.queue)
      (fun _ _ _ => dropped_call positive) (Or.inl ⟨.empty rfl rfl, rfl⟩) calls
  obtain ⟨-, atZero⟩ | ⟨index, last, untouched, stalled⟩ := dropped
  · omega
  · have afterStalled : after.queue.Stalled index last :=
      (machine host .rawKey).run_invariant_all (fun store => store.queue.Stalled index last)
        (fun _ _ _ => stalled_call positive untouched) stalled later
    refine ⟨last, untouched, stalled.building_eq, afterStalled.building_eq, ?_, ?_⟩
    · rw [afterStalled.buildingIndex_eq, stalled.buildingIndex_eq]
    · intro env commitment btcHeight
      exact Store.not_shouldPush_of_untouched positive afterStalled.building_eq untouched

end Contract

namespace Sample

def overwritingTx : Transaction := depositTo 10000000 (utf8 "b")

/-- A deposit through the checkpoint that was pushed when the first one was dropped. -/
def overwritingCalls : List Contract.Call := [
  executeAt 10369000 (.updateHeaderConfig (blockOf (overwritingTx.txid host))),
  executeAt 10369010 (.relayDeposit overwritingTx 7 (proofOf (overwritingTx.txid host)) 0 10
    (.address "b"))]

end Sample

/-- The deposit is accepted, and the checkpoint under construction has no input. -/
theorem Contract.run_stalled_sample :
    let start := instantiate Sample.host Sample.info Sample.instantiateMsg
    let pruned := (machine Sample.host .rawKey).run start (Sample.unconfirmedCalls 10)
    let after := (machine Sample.host .rawKey).run pruned Sample.overwritingCalls
    pruned.queue.head = 1 ∧ after.outpoints.length = pruned.outpoints.length + 1 ∧
      ∃ last : Checkpoint, last.Untouched ∧ pruned.queue.building = .ok last ∧
        after.queue.building = .ok last ∧
        after.queue.buildingIndex = pruned.queue.buildingIndex ∧
        ∀ env commitment btcHeight,
          after.shouldPush Sample.host env commitment btcHeight ≠ .ok true := by
  have positive (tx : Transaction) : 0 < Sample.host.vsize tx := by
    simp only [Sample.host]
    omega
  exact ⟨by decide +kernel, by decide +kernel, run_stalled Sample.host positive Sample.info
    Sample.instantiateMsg (Sample.unconfirmedCalls 10) Sample.overwritingCalls (by decide +kernel)⟩

end CwBitcoin
