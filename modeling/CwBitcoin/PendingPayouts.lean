import CwBitcoin.Payouts

/-!
# Every pending transfer is paid out once

The transfers that relayed deposits have inserted are the ones that have been
handed out together with the ones that still wait in the queue.  Nothing is
lost when checkpoints are pruned, since all but the last two have been paid
out by then.
-/

namespace CwBitcoin

namespace QueueStore

/-- All but the last two checkpoints have handed out their transfers. -/
def Settled (queue : QueueStore) : Prop :=
  ∀ index checkpoint, queue.window.item index = some checkpoint →
    index + 1 < queue.buildingIndex → checkpoint.pending = []

/-- The transfers that would be handed out now. -/
def payouts (queue : QueueStore) : List (Dest × Coin) :=
  match queue.takePendingCompleted with
  | .ok (_, dests) => dests.flatten
  | .error _ => []

variable {queue after : QueueStore} {index : Nat} {checkpoint replacement : Checkpoint}

theorem Settled.put (settled : queue.Settled) (found : queue.window.item index = some checkpoint)
    (same : replacement.pending = checkpoint.pending) : (queue.put index replacement).Settled := by
  intro other current currentAt before
  rw [window_put, Window.item_put found] at currentAt
  split at currentAt
  · rename_i isIndex
    obtain rfl := Option.some.inj currentAt
    rw [same]
    exact settled index checkpoint found (isIndex ▸ before)
  · exact settled other current currentAt before

theorem Settled.paysOut {dests : Payouts} (settled : queue.Settled)
    (pays : queue.PaysOut after dests) (sameIndex : after.buildingIndex = queue.buildingIndex) :
    after.Settled := by
  intro index checkpoint found before
  obtain ⟨earlier, earlierAt, -, waiting⟩ := pays.keeps found
  rw [sameIndex] at before
  rw [settled index earlier earlierAt before] at waiting
  exact List.eq_nil_iff_forall_not_mem.mpr fun entry member => by simpa using waiting entry member

theorem Settled.replaceBuilding {older : List Checkpoint} {building : Checkpoint}
    (settled : queue.Settled) (shaped : queue.Shaped)
    (split : queue.checkpoints = older ++ [building]) :
    Settled { queue with checkpoints := older ++ [replacement] } := by
  have ordered := shaped.ordered_of_split split
  have found := ordered.item_building split
  rw [← put_building ordered.aligned split]
  intro index checkpoint checkpointAt before
  have earlier : index + 1 < queue.buildingIndex := before
  rw [window_put, Window.item_put found, if_neg (by omega)] at checkpointAt
  exact settled index checkpoint checkpointAt earlier

theorem pending_sign {host : Host} {xpub : Xpub} {sigs : List Signature} {btcHeight : Nat}
    (settled : queue.Settled) (signed : queue.sign host xpub sigs index btcHeight = .ok after) :
    after.pending = queue.pending ∧ after.Settled := by
  obtain ⟨checkpoint, signedCheckpoint, got, -, -, sameFields, -, rfl⟩ := sign_eq_ok signed
  obtain ⟨-, found⟩ := get_eq_ok.mp got
  have same : signedCheckpoint.pending = checkpoint.pending := by rw [sameFields]
  exact ⟨flatMap_put _ found same, settled.put found same⟩

/-- When completed checkpoints can be counted, the confirmed one is among
them. -/
theorem confirmed_lt_of_numUnconfirmed {count : Nat} (noSigning : queue.signing = .ok none)
    (counted : queue.numUnconfirmed = .ok count) (positive : 1 ≤ queue.buildingIndex) :
    queue.confirmedIndex.getD 0 + 1 ≤ queue.buildingIndex := by
  simp only [numUnconfirmed, noSigning, Outcome.bind_eq_ok, Except.ok.injEq] at counted
  obtain ⟨_, rfl, counted⟩ := counted
  simp only [Option.isSome_none, Bool.false_eq_true, if_false, Nat.add_zero] at counted
  rw [if_neg (by omega)] at counted
  cases confirmed : queue.confirmedIndex with
  | none => simpa using positive
  | some confirmedIndex =>
      simp only [confirmed, Outcome.checkedSub_eq_ok] at counted
      simp only [Option.getD_some]
      omega

end QueueStore

namespace Store

variable {host : Host} {env : Env} {store after : Store}

/-- A credited deposit adds one pending transfer. -/
theorem pending_creditDeposit {input : Input} {feeRate : Nat} {dest : Dest}
    (shaped : store.queue.Shaped) (settled : store.queue.Settled)
    (credited : store.creditDeposit input feeRate dest = .ok after) :
    after.queue.Settled ∧ after.outpoints = store.outpoints ∧
      ∃ coin, after.queue.pending = store.queue.pending ++ [(dest, coin)] := by
  obtain ⟨older, building, fee, coin, split, -, -, -, -, rfl⟩ := creditDeposit_eq_ok credited
  exact ⟨settled.replaceBuilding shaped split, rfl, coin, QueueStore.flatMap_replaceBuilding _ split rfl⟩

/-- A relayed deposit adds at most one pending transfer. -/
theorem pending_relayDeposit {btcTx : Transaction} {btcHeight btcVout sigsetIndex : Nat}
    {btcProof : PartialMerkleTree} {dest : Dest}
    (shaped : store.queue.Shaped) (settled : store.queue.Settled)
    (relayed : store.relayDeposit host env btcTx btcHeight btcProof btcVout sigsetIndex dest =
      .ok after) :
    after.queue.Settled ∧ ⟨btcTx.txid host, btcVout⟩ ∉ store.outpoints ∧
      after.outpoints = ⟨btcTx.txid host, btcVout⟩ :: store.outpoints ∧
        ∃ entry : Option (Dest × Coin),
          after.queue.pending = store.queue.pending ++ entry.toList := by
  obtain ⟨_, _, _, timeout, -, -, -, -, fresh, ⟨recoveryTxs, rfl⟩ | ⟨input, -, credited⟩⟩ :=
    relayDeposit_eq_ok relayed
  · exact ⟨settled, fresh, rfl, none, (List.append_nil _).symm⟩
  · have inserted : (store.insertOutpoint ⟨btcTx.txid host, btcVout⟩ timeout).queue.Shaped := shaped
    obtain ⟨settledAfter, outpointsEq, coin, pendingEq⟩ :=
      pending_creditDeposit inserted settled credited
    exact ⟨settledAfter, fresh, outpointsEq, some (dest, coin), pendingEq⟩

theorem pending_addWithdrawal {scriptPubkey : Script} {amount : Nat}
    (shaped : store.queue.Shaped) (settled : store.queue.Settled)
    (added : store.addWithdrawal host scriptPubkey amount = .ok after) :
    after.queue.Settled ∧ after.outpoints = store.outpoints ∧
      after.queue.pending = store.queue.pending := by
  obtain ⟨older, building, fee, split, -, -, -, -, -, rfl⟩ := addWithdrawal_eq_ok added
  refine ⟨settled.replaceBuilding shaped split, rfl, ?_⟩
  rw [← List.append_nil store.queue.pending]
  exact QueueStore.flatMap_replaceBuilding _ split (List.append_nil _).symm

namespace Rollover

variable {commitment : Bytes} {unitsPerSat : Nat}
  (rollover : Rollover host env commitment unitsPerSat store after)

include rollover in
/-- When a checkpoint is started, the ones before the last have been paid out. -/
theorem older_paid (ordered : store.queue.Ordered) (settled : store.queue.Settled)
    (paid : ∀ {index checkpoint}, store.queue.window.item index = some checkpoint →
      checkpoint.status = .complete → store.queue.confirmedIndex.getD 0 ≤ index →
        checkpoint.pending = [])
    {index : Nat} {checkpoint : Checkpoint}
    (found : store.queue.window.item index = some checkpoint)
    (before : index < store.queue.buildingIndex) : checkpoint.pending = [] := by
  rcases Nat.lt_or_eq_of_le (Nat.succ_le_of_lt before) with earlier | isSecond
  · exact settled index checkpoint found earlier
  · obtain ⟨count, counted⟩ := rollover.ready.unconfirmed
    have confirmedBefore := QueueStore.confirmed_lt_of_numUnconfirmed rollover.ready.signing_eq
      counted (by omega)
    have isComplete := (ordered.complete_iff rollover.ready.signing_eq found).mpr before
    exact paid found isComplete (by omega)

include rollover in
/-- No transfer is lost with the checkpoints that are pruned. -/
theorem pending_eq (olderPaid : ∀ {index checkpoint},
      store.queue.window.item index = some checkpoint → index < store.queue.buildingIndex →
        checkpoint.pending = []) :
    after.queue.pending = store.queue.pending := by
  have nothing {checkpoints : List Checkpoint} (subset : checkpoints ⊆ rollover.older) :
      checkpoints.flatMap Checkpoint.pending = [] := by
    refine List.flatMap_eq_nil_iff.mpr fun checkpoint member => ?_
    obtain ⟨index, found, before⟩ := Window.exists_index_of_older rollover.aligned.window
      rollover.checkpoints_eq (subset member)
    exact olderPaid found before
  rw [QueueStore.pending, QueueStore.pending, rollover.checkpoints_after, rollover.checkpoints_eq,
    List.flatMap_append, List.flatMap_append, nothing (List.drop_subset _ _),
    nothing (List.Subset.refl _)]
  simp [frozen, fresh, Checkpoint.frozenAs, Checkpoint.setFirstTx, Checkpoint.started,
    Checkpoint.new]

include rollover in
theorem settled (olderPaid : ∀ {index checkpoint},
      store.queue.window.item index = some checkpoint → index < store.queue.buildingIndex →
        checkpoint.pending = []) : after.queue.Settled := by
  intro index checkpoint found before
  rw [rollover.buildingIndex_after] at before
  rcases rollover.item_after_cases found with ⟨impossible, -⟩ | ⟨impossible, -⟩ | ⟨older, oldAt⟩
  · omega
  · omega
  · exact olderPaid oldAt older

/-- The transfers of the older checkpoints are handed out in the same call. -/
theorem older_paid_of_taken {queue : QueueStore} {dests : Payouts} {before : Store}
    (rollover : Rollover host env commitment unitsPerSat { before with queue } after)
    (shaped : before.queue.Shaped) (settled : before.queue.Settled)
    (taken : before.queue.takePendingCompleted = .ok (queue, dests)) :
    ∀ {index checkpoint}, queue.window.item index = some checkpoint →
      index < queue.buildingIndex → checkpoint.pending = [] := by
  have paysOut := QueueStore.paysOut_of_takePendingCompleted shaped taken
  obtain ⟨sameIndex, sameConfirmed⟩ := QueueStore.indexes_takePendingCompleted taken
  have ordered := (shaped.takePendingCompleted taken).ordered_of_split rollover.checkpoints_eq
  intro index checkpoint found earlier
  refine rollover.older_paid ordered (settled.paysOut paysOut sameIndex) ?_ found earlier
  intro other current currentAt isComplete fromIndex
  rw [sameConfirmed] at fromIndex
  exact paysOut.paid currentAt isComplete fromIndex

end Rollover

/-- A step in the call that takes the pending transfers loses none. -/
theorem settled_endBlock {queue : QueueStore} {dests : Payouts} {hash : Bytes} {btcHeight : Nat}
    {shouldAllowDeposits pushed : Bool} {config : BitcoinConfig} (shaped : store.queue.Shaped)
    (settled : store.queue.Settled)
    (taken : store.queue.takePendingCompleted = .ok (queue, dests))
    (stepped : maybeStep host env { store with queue } btcHeight shouldAllowDeposits hash config =
      .ok (after, pushed)) :
    after.queue.Settled ∧ after.queue.pending = queue.pending ∧
      after.outpoints = store.outpoints := by
  rcases maybeStep_eq_ok stepped with ⟨rfl, -⟩ | ⟨⟨first⟩⟩ | ⟨rollover, -⟩
  · obtain ⟨sameIndex, -⟩ := QueueStore.indexes_takePendingCompleted taken
    have paysOut := QueueStore.paysOut_of_takePendingCompleted shaped taken
    exact ⟨settled.paysOut paysOut sameIndex, rfl, rfl⟩
  · refine ⟨?_, ?_, by rw [first.after_eq]⟩
    · intro index checkpoint found before
      rw [first.buildingIndex_after] at before
      omega
    · have empty : queue.checkpoints = [] := first.empty
      rw [QueueStore.pending, QueueStore.pending, first.checkpoints_after, empty]
      rfl
  · have olderPaid : ∀ {index checkpoint}, queue.window.item index = some checkpoint →
        index < queue.buildingIndex → checkpoint.pending = [] :=
      rollover.older_paid_of_taken shaped settled taken
    exact ⟨rollover.settled olderPaid, rollover.pending_eq olderPaid, rollover.outpoints_after⟩

end Store

namespace Contract

/-- What a run inserts, with the outpoint of each deposit, and what it hands
out. -/
structure Ledger where
  inserted : List (OutPoint × Dest × Coin)
  handed : List (Dest × Coin)

/-- A deposit inserts what it adds to the pending transfers, and the end of a
block hands out what is taken from them. -/
def observeLedger (host : Host) (before : Store) (call : Call) (after : Store) (ledger : Ledger) :
    Ledger :=
  match call.deposit with
  | some deposit =>
      { ledger with inserted := ledger.inserted ++
          (after.queue.pending.drop before.queue.pending.length).map fun entry =>
            (⟨deposit.btcTx.txid host, deposit.btcVout⟩, entry) }
  | none =>
      if call.blockHash.isSome then
        { ledger with handed := ledger.handed ++ before.queue.payouts }
      else ledger

/-- What holds in every state of a run: transfers wait in the last two
checkpoints, and the inserted ones are handed out or waiting. -/
structure PayoutsConserved (store : Store) (ledger : Ledger) : Prop where
  shaped : store.queue.Shaped
  settled : store.queue.Settled
  conserved : (ledger.inserted.map Prod.snd).Perm (ledger.handed ++ store.queue.pending)
  processed : ∀ entry ∈ ledger.inserted, entry.1 ∈ store.outpoints
  distinct : (ledger.inserted.map Prod.fst).Nodup

variable {host : Host} {store after : Store} {ledger : Ledger} {call : Call}

theorem PayoutsConserved.congr (conserved : PayoutsConserved store ledger)
    (shaped : after.queue.Shaped) (settled : after.queue.Settled)
    (samePending : after.queue.pending = store.queue.pending)
    (sameOutpoints : after.outpoints = store.outpoints) : PayoutsConserved after ledger where
  shaped := shaped
  settled := settled
  conserved := by
    rw [samePending]
    exact conserved.conserved
  processed := by
    rw [sameOutpoints]
    exact conserved.processed
  distinct := conserved.distinct

/-- A relayed deposit inserts what it adds. -/
theorem PayoutsConserved.relayDeposit {env : Env} {btcTx : Transaction}
    {btcHeight btcVout sigsetIndex : Nat} {btcProof : PartialMerkleTree} {dest : Dest}
    (conserved : PayoutsConserved store ledger)
    (relayed : store.relayDeposit host env btcTx btcHeight btcProof btcVout sigsetIndex dest =
      .ok after) :
    PayoutsConserved after { ledger with inserted := ledger.inserted ++
      (after.queue.pending.drop store.queue.pending.length).map fun entry =>
        (⟨btcTx.txid host, btcVout⟩, entry) } := by
  obtain ⟨settled, fresh, outpointsEq, added, pendingEq⟩ :=
    Store.pending_relayDeposit conserved.shaped conserved.settled relayed
  have addedEq : after.queue.pending.drop store.queue.pending.length = added.toList := by
    rw [pendingEq, List.drop_left]
  rw [addedEq]
  have unseen : (⟨btcTx.txid host, btcVout⟩ : OutPoint) ∉ ledger.inserted.map Prod.fst := by
    intro member
    obtain ⟨entry, isInserted, sameOutpoint⟩ := List.mem_map.mp member
    rw [← sameOutpoint] at fresh
    exact fresh (conserved.processed entry isInserted)
  refine ⟨Store.shaped_relayDeposit conserved.shaped relayed, settled, ?_, ?_, ?_⟩
  · rw [pendingEq, ← List.append_assoc, List.map_append, List.map_map]
    simpa [Function.comp_def] using conserved.conserved.append_right added.toList
  · intro entry member
    rw [outpointsEq]
    rcases List.mem_append.mp member with old | isAdded
    · exact List.mem_cons_of_mem _ (conserved.processed entry old)
    · obtain ⟨transfer, -, rfl⟩ := List.mem_map.mp isAdded
      exact List.mem_cons_self
  · cases added with
    | none => simpa using conserved.distinct
    | some entry =>
        simp only [Option.toList_some, List.map_append, List.map_cons, List.map_nil]
        exact List.nodup_append_comm.mp (List.nodup_cons.mpr ⟨unseen, conserved.distinct⟩)

/-- The end of a block hands out what it takes, and loses nothing when it
starts a checkpoint. -/
theorem PayoutsConserved.endBlock {env : Env} {queue : QueueStore} {stepped : Store} {hash : Bytes}
    {dests : Payouts} {btcHeight : Nat} {shouldAllowDeposits pushed : Bool}
    (conserved : PayoutsConserved store ledger)
    (taken : store.queue.takePendingCompleted = .ok (queue, dests))
    (steppedOk : Store.maybeStep host env { store with queue } btcHeight shouldAllowDeposits hash
      store.bitcoinConfig = .ok (stepped, pushed)) :
    PayoutsConserved stepped { ledger with handed := ledger.handed ++ store.queue.payouts } := by
  have paysOut := QueueStore.paysOut_of_takePendingCompleted conserved.shaped taken
  have takenShaped := conserved.shaped.takePendingCompleted taken
  obtain ⟨sameIndex, -⟩ := QueueStore.indexes_takePendingCompleted taken
  have takenSettled : queue.Settled := conserved.settled.paysOut paysOut sameIndex
  have payoutsEq : store.queue.payouts = dests.flatten := by
    rw [QueueStore.payouts, taken]
  have takenConserved : PayoutsConserved { store with queue }
      { ledger with handed := ledger.handed ++ store.queue.payouts } := by
    refine ⟨takenShaped, takenSettled, ?_, conserved.processed, conserved.distinct⟩
    rw [payoutsEq, List.append_assoc]
    exact conserved.conserved.trans (paysOut.conserved.append_left _)
  obtain ⟨settled, samePending, sameOutpoints⟩ :=
    Store.settled_endBlock conserved.shaped conserved.settled taken steppedOk
  exact takenConserved.congr (Store.shaped_maybeStep takenShaped steppedOk) settled samePending
    sameOutpoints

theorem Effect.payoutsConserved (effect : Effect host store call after)
    (conserved : PayoutsConserved store ledger) :
    PayoutsConserved after (observeLedger host store call after ledger) := by
  have shapedAfter := effect.shaped conserved.shaped
  have unobserved (noHash : call.blockHash = none) (noDeposit : call.deposit = none) :
      observeLedger host store call after ledger = ledger := by
    simp [observeLedger, noHash, noDeposit]
  cases effect with
  | deposit _ _ _ _ _ _ _ _ _ relayed => exact conserved.relayDeposit relayed
  | withdrawal noHash noDeposit _ _ _ added =>
      rw [unobserved noHash noDeposit]
      refine addWithdrawals_invariant (fun current => PayoutsConserved current ledger) ?_
        conserved added
      intro current amount next currentConserved addedOne
      obtain ⟨settled, sameOutpoints, samePending⟩ := Store.pending_addWithdrawal
        currentConserved.shaped currentConserved.settled addedOne
      exact currentConserved.congr (Store.shaped_addWithdrawal currentConserved.shaped addedOne)
        settled samePending sameOutpoints
  | signature noHash noDeposit _ _ _ _ signed =>
      rw [unobserved noHash noDeposit]
      obtain ⟨samePending, settled⟩ := QueueStore.pending_sign conserved.settled signed
      exact conserved.congr shapedAfter settled samePending rfl
  | confirmation noHash noDeposit _ _ _ relayed =>
      rw [unobserved noHash noDeposit]
      obtain ⟨-, -, rfl⟩ := Store.relayCheckpoint_eq_ok relayed
      exact conserved.congr shapedAfter conserved.settled rfl rfl
  | configuration => exact conserved.congr shapedAfter conserved.settled rfl rfl
  | @endBlock _ hash queue stepped _ isClock noDeposit _ _ taken _ _ _ steppedOk same =>
      have observed : observeLedger host store call after ledger =
          { ledger with handed := ledger.handed ++ store.queue.payouts } := by
        simp [observeLedger, isClock, noDeposit]
      rw [observed]
      refine (conserved.endBlock taken steppedOk).congr shapedAfter ?_ ?_ same.outpoints_eq
      · rw [same.queue_eq]
        exact (conserved.endBlock taken steppedOk).settled
      · rw [same.queue_eq]
  | other noHash noDeposit same =>
      rw [unobserved noHash noDeposit]
      refine conserved.congr shapedAfter ?_ (by rw [same.queue_eq]) same.outpoints_eq
      rw [same.queue_eq]
      exact conserved.settled

/-- The transfers that a run inserts and hands out. -/
def runLedger (host : Host) (start : Store) (calls : List Call) : Ledger :=
  (((machine host).observed (observeLedger host)).run
    (start, { inserted := [], handed := [] }) calls).2

theorem run_payoutsConserved (host : Host) (info : MessageInfo) (msg : InstantiateMsg)
    (calls : List Call) :
    PayoutsConserved ((machine host).run (instantiate host info msg) calls)
      (runLedger host (instantiate host info msg) calls) := by
  have start : PayoutsConserved (instantiate host info msg) { inserted := [], handed := [] } := by
    refine ⟨.empty rfl rfl, ?_, List.Perm.refl _, by simp, List.nodup_nil⟩
    intro index checkpoint found _
    exact absurd found (Window.item_ne_of_empty rfl)
  refine CallMachine.observed_invariant PayoutsConserved ?_ start
    ((machine host).permitted_all (instantiate host info msg) calls)
  intro before ledger call after conserved _ called
  exact (effect_of_call called).payoutsConserved conserved

end Contract

/-- In every state of every run the inserted transfers are the handed out ones
and the waiting ones, every outpoint has inserted at most one, and what would be
handed out next waits in a complete checkpoint. -/
theorem Contract.run_payouts_conserved (host : Host) (info : MessageInfo) (msg : InstantiateMsg)
    (calls : List Call) :
    ((runLedger host (instantiate host info msg) calls).inserted.map Prod.snd).Perm
        ((runLedger host (instantiate host info msg) calls).handed ++
          ((machine host).run (instantiate host info msg) calls).queue.pending) ∧
      ((runLedger host (instantiate host info msg) calls).inserted.map Prod.fst).Nodup ∧
      ∀ queue dests,
        ((machine host).run (instantiate host info msg) calls).queue.takePendingCompleted =
          .ok (queue, dests) →
        ∀ entry ∈ dests.flatten, ∃ index checkpoint,
          ((machine host).run (instantiate host info msg) calls).queue.get index = .ok checkpoint ∧
            checkpoint.status = .complete ∧ entry ∈ checkpoint.pending := by
  have holds := run_payoutsConserved host info msg calls
  refine ⟨holds.conserved, holds.distinct, fun queue dests taken entry member => ?_⟩
  obtain ⟨index, checkpoint, found, isComplete, waiting⟩ :=
    (QueueStore.paysOut_of_takePendingCompleted holds.shaped taken).origin entry member
  have aligned := (holds.shaped.ordered_of_item found).aligned
  exact ⟨index, checkpoint, QueueStore.get_eq_ok.mpr ⟨aligned, found⟩, isComplete, waiting⟩

end CwBitcoin
