import CwBitcoin.PendingPayouts
import Mathlib.Tactic.Linarith

/-!
# Conservation of the reserve

Every operation moves value between the inputs and outputs of the checkpoint
under construction, the pending transfers, the fee pool, and what users have
been paid and have burned.  What the reserve holds beyond its obligations are
the remainders of withdrawals below one satoshi, and the transfers of
checkpoints that were pruned before they were handed out.
-/

namespace CwBitcoin

/-- The sum of the amounts of some transfers. -/
def totalAmount (transfers : List (Dest × Coin)) : Nat :=
  (transfers.map fun transfer => transfer.2.amount).sum

/-- The input amounts of a transaction minus its output values. -/
def BitcoinTx.balance (tx : BitcoinTx) : Int := tx.amountIn - tx.amountOut

/-- The balance of the checkpoint under construction. -/
def QueueStore.reserve (queue : QueueStore) : Int :=
  match queue.building with
  | .ok building => building.mainTx.balance
  | .error _ => 0

/-- The transfers in the checkpoints that are dropped at the front. -/
def QueueStore.prunedPending (before after : QueueStore) : List (Dest × Coin) :=
  (before.checkpoints.take (after.window.first - before.window.first)).flatMap Checkpoint.pending

section Amounts

variable {first second : List (Dest × Coin)}

@[simp]
theorem totalAmount_append : totalAmount (first ++ second) = totalAmount first + totalAmount second := by
  simp [totalAmount]

@[simp]
theorem totalAmount_nil : totalAmount [] = 0 := rfl

@[simp]
theorem totalAmount_singleton (transfer : Dest × Coin) :
    totalAmount [transfer] = transfer.2.amount := by
  simp [totalAmount]

theorem totalAmount_perm (perm : first.Perm second) : totalAmount first = totalAmount second :=
  (perm.map fun transfer : Dest × Coin => transfer.2.amount).sum_eq

end Amounts

theorem BitcoinTx.balance_credited (tx : BitcoinTx) (input : Input) :
    ({ tx with input := tx.input ++ [input] } : BitcoinTx).balance = tx.balance + input.amount := by
  simp only [balance, amountIn, amountOut, List.map_append, List.sum_append, List.map_singleton,
    List.sum_singleton]
  push_cast
  ring

theorem BitcoinTx.balance_withdrawn (tx : BitcoinTx) (output : TxOut) :
    ({ tx with output := tx.output ++ [output] } : BitcoinTx).balance =
      tx.balance - output.value := by
  simp only [balance, amountIn, amountOut, List.map_append, List.sum_append, List.map_singleton,
    List.sum_singleton]
  push_cast
  ring

theorem BitcoinTx.balance_congr {tx other : BitcoinTx} (same : tx.unsigned = other.unsigned) :
    tx.balance = other.balance := by
  rw [balance, balance, ← unsigned_amountIn, ← unsigned_amountOut, same, unsigned_amountIn,
    unsigned_amountOut]

namespace QueueStore

variable {queue after : QueueStore} {index : Nat} {checkpoint building replacement : Checkpoint}
  {older : List Checkpoint}

theorem reserve_of_split (aligned : queue.Aligned) (split : queue.checkpoints = older ++ [building]) :
    queue.reserve = building.mainTx.balance := by
  rw [reserve, building_eq_ok.mpr ⟨aligned, older, split⟩]

theorem reserve_replaceBuilding (aligned : queue.Aligned)
    (split : queue.checkpoints = older ++ [building]) :
    reserve { queue with checkpoints := older ++ [replacement] } = replacement.mainTx.balance := by
  have replaced : (queue.put queue.buildingIndex replacement).Aligned := aligned.put
  rw [put_building aligned split] at replaced
  exact reserve_of_split replaced rfl

theorem reserve_empty (empty : queue.checkpoints = []) : queue.reserve = 0 := by
  unfold reserve
  split
  · rename_i building read
    obtain ⟨-, older, split⟩ := building_eq_ok.mp read
    rw [empty] at split
    exact absurd split.symm (by simp)
  · rfl

/-- A replaced checkpoint with the same balance leaves the reserve as it is. -/
theorem reserve_put (got : queue.get index = .ok checkpoint)
    (same : replacement.mainTx.balance = checkpoint.mainTx.balance) :
    (queue.put index replacement).reserve = queue.reserve := by
  obtain ⟨aligned, found⟩ := get_eq_ok.mp got
  rcases List.eq_nil_or_concat queue.checkpoints with empty | ⟨older, building, split⟩
  · exact absurd found (Window.item_ne_of_empty empty)
  · rw [List.concat_eq_append] at split
    have buildingAt : queue.window.item queue.buildingIndex = some building :=
      Window.item_last aligned.window split
    have read : queue.get queue.buildingIndex = .ok building := get_eq_ok.mpr ⟨aligned, buildingAt⟩
    have readAfter : (queue.put index replacement).get queue.buildingIndex =
        .ok (if queue.buildingIndex = index then replacement else building) := by
      refine get_eq_ok.mpr ⟨aligned.put, ?_⟩
      rw [window_put, Window.item_put found, buildingAt, apply_ite some]
    change (match (queue.put index replacement).get queue.buildingIndex with
      | .ok building => building.mainTx.balance
      | .error _ => 0) = match queue.get queue.buildingIndex with
      | .ok building => building.mainTx.balance
      | .error _ => 0
    rw [read, readAfter]
    by_cases isBuilding : queue.buildingIndex = index
    · rw [if_pos isBuilding]
      rw [isBuilding, found] at buildingAt
      rw [← Option.some.inj buildingAt]
      exact same
    · rw [if_neg isBuilding]

theorem reserve_sign {host : Host} {xpub : Xpub} {sigs : List Signature} {btcHeight : Nat}
    (signed : queue.sign host xpub sigs index btcHeight = .ok after) :
    after.reserve = queue.reserve ∧ after.pending = queue.pending := by
  obtain ⟨checkpoint, signedCheckpoint, got, -, sameTxs, sameFields, -, rfl⟩ := sign_eq_ok signed
  obtain ⟨-, found⟩ := get_eq_ok.mp got
  have samePending : signedCheckpoint.pending = checkpoint.pending := by rw [sameFields]
  exact ⟨reserve_put got (BitcoinTx.balance_congr (Checkpoint.mainTx_unsigned_congr sameTxs)),
    flatMap_put _ found samePending⟩

theorem reserve_takePendingCompleted {dests : Payouts}
    (taken : queue.takePendingCompleted = .ok (after, dests)) : after.reserve = queue.reserve :=
  takePendingCompleted_invariant (fun current => current.reserve = queue.reserve)
    (fun _ _ checkpoint holds got => (reserve_put got
      (rfl : checkpoint.paidOut.mainTx.balance = checkpoint.mainTx.balance)).trans holds)
    (fun _ _ holds => holds) rfl taken

end QueueStore

namespace Store

variable {host : Host} {env : Env} {store after : Store}

/-- What a withdrawal leaves over of the last satoshi. -/
def remainder (store : Store) (scriptPubkey : Script) (amount : Nat) : Nat :=
  match store.withdrawalFee scriptPubkey with
  | .ok fee => (amount - fee) % store.bitcoinConfig.unitsPerSat
  | .error _ => 0

/-- What the reserve holds beyond the pending transfers and the fee pool, in
units of the bridged coin. -/
def surplus (store : Store) : Int :=
  store.bitcoinConfig.unitsPerSat * store.queue.reserve - totalAmount store.queue.pending -
    store.feePool

/-- How the surplus changes with the checkpoint under construction and the fee
pool. -/
theorem surplus_replaceBuilding {older : List Checkpoint} {building replacement : Checkpoint}
    (shaped : store.queue.Shaped) (split : store.queue.checkpoints = older ++ [building])
    (queue_eq : after.queue = { store.queue with checkpoints := older ++ [replacement] })
    (config_eq : after.bitcoinConfig = store.bitcoinConfig) :
    after.surplus = store.surplus +
      store.bitcoinConfig.unitsPerSat * (replacement.mainTx.balance - building.mainTx.balance) -
      ((totalAmount replacement.pending : Int) - totalAmount building.pending) -
      (after.feePool - store.feePool) := by
  have aligned := (shaped.ordered_of_split split).aligned
  have pendingBefore : store.queue.pending = older.flatMap Checkpoint.pending ++ building.pending := by
    simp [QueueStore.pending, split]
  have pendingAfter : after.queue.pending =
      older.flatMap Checkpoint.pending ++ replacement.pending := by
    simp [QueueStore.pending, queue_eq]
  have reserveAfter : after.queue.reserve = replacement.mainTx.balance := by
    rw [queue_eq]
    exact QueueStore.reserve_replaceBuilding aligned split
  rw [surplus, surplus, reserveAfter, QueueStore.reserve_of_split aligned split, pendingBefore,
    pendingAfter, config_eq, totalAmount_append, totalAmount_append]
  push_cast
  ring

/-- A deposit is divided between its pending transfer and the fee pool. -/
theorem surplus_creditDeposit {input : Input} {feeRate : Nat} {dest : Dest}
    (shaped : store.queue.Shaped)
    (fits : ∀ size fee, input.estVsize = .ok size →
      store.calcMinimumDepositFees size feeRate = .ok fee → fee < 2 ^ 63)
    (credited : store.creditDeposit input feeRate dest = .ok after) :
    after.surplus = store.surplus := by
  obtain ⟨older, building, fee, coin, split, ⟨tx, first⟩, ⟨size, sized, charged⟩, -, divided,
    afterEq⟩ := creditDeposit_eq_ok credited
  have pendingEq : (((building.collect (fee / store.bitcoinConfig.unitsPerSat)).withInput
      input).insertPending dest coin).pending = building.pending ++ [(dest, coin)] := rfl
  have feePoolEq : after.feePool = store.feePool + fee := by
    rw [afterEq, ← asI64_of_lt (fits size fee sized charged)]
  have amounts : (coin.amount + fee : Int) = input.amount * store.bitcoinConfig.unitsPerSat := by
    exact_mod_cast divided
  rw [surplus_replaceBuilding shaped split (by rw [afterEq]) (by rw [afterEq]),
    Checkpoint.mainTx_credited first, BitcoinTx.balance_credited, feePoolEq, pendingEq,
    totalAmount_append,
    totalAmount_singleton]
  push_cast
  linarith

theorem surplus_relayDeposit {btcTx : Transaction} {btcHeight btcVout sigsetIndex : Nat}
    {btcProof : PartialMerkleTree} {dest : Dest} (shaped : store.queue.Shaped)
    (fits : Outcome.Ensures (store.depositFee sigsetIndex) fun fee => fee < 2 ^ 63)
    (relayed : store.relayDeposit host env btcTx btcHeight btcProof btcVout sigsetIndex dest =
      .ok after) : after.surplus = store.surplus := by
  obtain ⟨output, checkpoint, _, timeout, -, got, -, -, -, ⟨recoveryTxs, rfl⟩ | ⟨input, made, credited⟩⟩ :=
    relayDeposit_eq_ok relayed
  · rfl
  · obtain ⟨-, -, sizeEq, -, -⟩ := Input.new_eq_ok made
    have inserted : (store.insertOutpoint ⟨btcTx.txid host, btcVout⟩ timeout).queue.Shaped := shaped
    have insertedSurplus : (store.insertOutpoint ⟨btcTx.txid host, btcVout⟩ timeout).surplus =
        store.surplus := rfl
    rw [← insertedSurplus]
    apply surplus_creditDeposit inserted _ credited
    intro size fee sized charged
    apply fits
    rw [Input.estVsize, sizeEq] at sized
    simp only [depositFee, Outcome.bind_eq_ok]
    exact ⟨checkpoint, got, size, sized, charged⟩

/-- A withdrawal is divided between its output and the fee pool, up to the
remainder. -/
theorem surplus_addWithdrawal {scriptPubkey : Script} {amount : Nat}
    (shaped : store.queue.Shaped)
    (fits : Outcome.Ensures (store.withdrawalFee scriptPubkey) fun fee =>
      fee < 2 ^ 63 ∧ amount - fee < 2 ^ 64)
    (added : store.addWithdrawal host scriptPubkey amount = .ok after) :
    after.surplus = store.surplus - amount + store.remainder scriptPubkey amount := by
  obtain ⟨older, building, fee, split, ⟨tx, first⟩, charged, -, covered, -, afterEq⟩ :=
    addWithdrawal_eq_ok added
  obtain ⟨small, restSmall⟩ := fits fee charged
  have balanceEq : ((building.collect (fee / store.bitcoinConfig.unitsPerSat)).withOutput
      ⟨(amount - fee) / store.bitcoinConfig.unitsPerSat, scriptPubkey⟩).mainTx.balance =
        building.mainTx.balance - ((amount - fee) / store.bitcoinConfig.unitsPerSat : Nat) := by
    rw [Checkpoint.mainTx_withdrawn first, BitcoinTx.balance_withdrawn]
  have feePoolEq : after.feePool = store.feePool + fee := by
    rw [afterEq, ← asI64_of_lt small]
  have rounded : ((store.bitcoinConfig.unitsPerSat *
      ((amount - fee) / store.bitcoinConfig.unitsPerSat) +
        (amount - fee) % store.bitcoinConfig.unitsPerSat : Nat) : Int) = amount - fee := by
    rw [Nat.div_add_mod, Nat.cast_sub covered]
  have queueEq : after.queue = { store.queue with checkpoints := older ++
      [(building.collect (fee / store.bitcoinConfig.unitsPerSat)).withOutput
        ⟨(amount - fee) / store.bitcoinConfig.unitsPerSat, scriptPubkey⟩] } := by
    rw [afterEq, asU64, Nat.mod_eq_of_lt restSmall]
  rw [surplus_replaceBuilding shaped split queueEq (by rw [afterEq]), balanceEq, feePoolEq,
    remainder, charged]
  have samePending : ((building.collect (fee / store.bitcoinConfig.unitsPerSat)).withOutput
      ⟨(amount - fee) / store.bitcoinConfig.unitsPerSat, scriptPubkey⟩).pending =
        building.pending := rfl
  rw [samePending]
  push_cast at rounded ⊢
  linarith

namespace Rollover

variable {commitment : Bytes} {unitsPerSat : Nat}
  (rollover : Rollover host env commitment unitsPerSat store after)

/-- The new checkpoint starts with the balance of the previous one, less the
miner fee. -/
theorem balance_fresh :
    rollover.fresh.mainTx.balance = rollover.building.mainTx.balance - rollover.cpFees := by
  obtain ⟨reserve, others, outputs, -, total⟩ := Checkpoint.freezeTx_eq_ok rollover.frozen_eq
  obtain ⟨reserveScript, commitmentScript, -, outsEq⟩ :=
    Checkpoint.additionalOutputs_eq_ok rollover.outs_eq
  obtain ⟨-, reserveAmount, -⟩ := Input.new_eq_ok rollover.reserveInput_eq
  have mainTxEq : rollover.fresh.mainTx = { BitcoinTx.default with
      input := rollover.reserveInput :: rollover.excess
      output := ((rollover.outs ++ rollover.building.mainTx.output).drop
        store.checkpointConfig.maxOutputs).reverse } := rfl
  have excessAmounts : rollover.excess.map Input.amount =
      (rollover.building.mainTx.input.drop store.checkpointConfig.maxInputs).reverse.map
        Input.amount := by
    have erased (inputs : List Input) : inputs.map Input.amount =
        (inputs.map Input.unsigned).map Input.amount := by
      rw [List.map_map]
      rfl
    rw [erased, rollover.excess_eq, ← erased]
  have amountIn : (((rollover.building.mainTx.input.take store.checkpointConfig.maxInputs).map
      Input.amount).sum + ((rollover.building.mainTx.input.drop
        store.checkpointConfig.maxInputs).map Input.amount).sum) =
          rollover.building.mainTx.amountIn := by
    rw [← List.sum_append, ← List.map_append, List.take_append_drop]
    rfl
  have amountOut : (((reserve :: others).map TxOut.value).sum +
      (((rollover.outs ++ rollover.building.mainTx.output).drop
        store.checkpointConfig.maxOutputs).map TxOut.value).sum) =
          rollover.building.mainTx.amountOut := by
    rw [← outputs, ← List.sum_append, ← List.map_append, List.take_append_drop, outsEq]
    simp [BitcoinTx.amountOut]
  rw [mainTxEq, BitcoinTx.balance, BitcoinTx.balance, ← amountIn, ← amountOut, BitcoinTx.amountIn,
    BitcoinTx.amountOut, List.map_cons, List.sum_cons, excessAmounts, List.map_reverse,
    List.sum_reverse, List.map_reverse, List.sum_reverse, reserveAmount, total]
  push_cast
  ring

include rollover in
/-- The transfers of the dropped checkpoints are no longer pending. -/
theorem pending_pruned : store.queue.pending =
    store.queue.prunedPending after.queue ++ after.queue.pending := by
  have count : after.queue.window.first - store.queue.window.first = rollover.pruned := by
    rw [rollover.first_after, Nat.add_sub_cancel_left]
  have freshPending : rollover.fresh.pending = [] := rfl
  have frozenPending : rollover.frozen.pending = rollover.building.pending := rfl
  have olderPending : rollover.older.flatMap Checkpoint.pending =
      (rollover.older.take rollover.pruned).flatMap Checkpoint.pending ++
        (rollover.older.drop rollover.pruned).flatMap Checkpoint.pending := by
    rw [← List.flatMap_append, List.take_append_drop]
  rw [QueueStore.prunedPending, count, QueueStore.pending, QueueStore.pending,
    rollover.checkpoints_after, rollover.checkpoints_eq,
    List.take_append_of_le_length rollover.pruned_le_older]
  simp only [List.flatMap_append, List.flatMap_cons, List.flatMap_nil, olderPending, freshPending,
    frozenPending, List.append_nil, List.append_assoc]

/-- A step pays the miner fee from the reserve and from the fee pool. -/
theorem surplus_eq
    (rollover : Rollover host env commitment store.bitcoinConfig.unitsPerSat store after)
    (small : rollover.cpFees * store.bitcoinConfig.unitsPerSat < 2 ^ 63) :
    after.surplus = store.surplus + totalAmount (store.queue.prunedPending after.queue) := by
  have reserveBefore : store.queue.reserve = rollover.building.mainTx.balance :=
    QueueStore.reserve_of_split rollover.aligned rollover.checkpoints_eq
  have split : after.queue.checkpoints =
      (rollover.older.drop rollover.pruned ++ [rollover.frozen]) ++ [rollover.fresh] := by
    rw [rollover.checkpoints_after, List.append_assoc]
    rfl
  have reserveAfter : after.queue.reserve = rollover.building.mainTx.balance - rollover.cpFees := by
    rw [QueueStore.reserve_of_split rollover.aligned_after split, rollover.balance_fresh]
  have feePoolAfter : after.feePool = store.feePool -
      rollover.cpFees * store.bitcoinConfig.unitsPerSat := by
    have paid := congrArg Store.feePool rollover.after_eq
    rw [asI64_of_lt small] at paid
    push_cast at paid
    exact paid
  have configAfter : after.bitcoinConfig = store.bitcoinConfig := by
    have kept := congrArg Store.bitcoinConfig rollover.after_eq
    exact kept
  have pendingSplit := congrArg totalAmount rollover.pending_pruned
  rw [totalAmount_append] at pendingSplit
  rw [surplus, surplus, reserveAfter, reserveBefore, feePoolAfter, configAfter, pendingSplit]
  push_cast
  ring

end Rollover

/-- What a step no longer has pending was in the dropped checkpoints. -/
theorem pending_maybeStep {btcHeight : Nat} {shouldAllowDeposits pushed : Bool} {commitment : Bytes}
    {config : BitcoinConfig}
    (stepped : store.maybeStep host env btcHeight shouldAllowDeposits commitment config =
      .ok (after, pushed)) :
    store.queue.pending = store.queue.prunedPending after.queue ++ after.queue.pending := by
  rcases maybeStep_eq_ok stepped with ⟨rfl, -⟩ | ⟨⟨first⟩⟩ | ⟨rollover, -⟩
  · rw [QueueStore.prunedPending, Nat.sub_self]
    rfl
  · rw [QueueStore.prunedPending, QueueStore.pending, QueueStore.pending, first.checkpoints_after,
      first.empty, List.take_nil]
    rfl
  · exact rollover.pending_pruned

theorem surplus_maybeStep {btcHeight : Nat} {shouldAllowDeposits pushed : Bool} {commitment : Bytes}
    (fits : Outcome.Ensures (store.stepFees host env shouldAllowDeposits commitment) fun cpFees =>
      cpFees * store.bitcoinConfig.unitsPerSat < 2 ^ 63)
    (stepped : store.maybeStep host env btcHeight shouldAllowDeposits commitment
      store.bitcoinConfig = .ok (after, pushed)) :
    after.surplus = store.surplus + totalAmount (store.queue.prunedPending after.queue) := by
  rcases maybeStep_eq_ok stepped with ⟨rfl, -⟩ | ⟨⟨first⟩⟩ | ⟨rollover, enabled⟩
  · rw [QueueStore.prunedPending, Nat.sub_self]
    simp
  · have aligned : after.queue.Aligned := first.ordered.aligned
    have split : after.queue.checkpoints =
        [] ++ [{ Checkpoint.new first.sigset with depositsEnabled := first.depositsEnabled }] :=
      first.checkpoints_after
    have reserveAfter : after.queue.reserve = 0 := QueueStore.reserve_of_split aligned split
    have feePoolAfter : after.feePool = store.feePool := by rw [first.after_eq]
    rw [surplus, surplus, reserveAfter, QueueStore.reserve_empty first.empty,
      pending_maybeStep stepped, feePoolAfter, totalAmount_append]
    push_cast
    ring
  · apply rollover.surplus_eq
    apply fits
    rw [← enabled]
    exact rollover.cpFees_eq

theorem surplus_takePendingCompleted {queue : QueueStore} {dests : Payouts}
    (shaped : store.queue.Shaped)
    (taken : store.queue.takePendingCompleted = .ok (queue, dests)) :
    ({ store with queue } : Store).surplus = store.surplus + totalAmount store.queue.payouts := by
  have paysOut := QueueStore.paysOut_of_takePendingCompleted shaped taken
  have pendingEq := totalAmount_perm paysOut.conserved
  rw [totalAmount_append] at pendingEq
  rw [surplus, surplus, QueueStore.reserve_takePendingCompleted taken, pendingEq,
    QueueStore.payouts, taken]
  push_cast
  ring

end Store

namespace Reserve

/-- The operations on the reserve.  The end of a block takes the pending
transfers and advances the checkpoints in one call, and what happens elsewhere
leaves the queue, the fee pool and the configurations alone. -/
inductive Operation where
  | relayDeposit (env : Env) (btcTx : Transaction) (btcHeight : Nat) (btcProof : PartialMerkleTree)
      (btcVout sigsetIndex : Nat) (dest : Dest)
  | addWithdrawal (scriptPubkey : Script) (amount : Nat)
  | sign (xpub : Xpub) (sigs : List Signature) (cpIndex btcHeight : Nat)
  | relayCheckpoint (btcHeight : Nat) (btcProof : PartialMerkleTree) (cpIndex : Nat)
  | takePendingCompleted
  | maybeStep (env : Env) (btcHeight : Nat) (shouldAllowDeposits : Bool)
      (timestampingCommitment : Bytes)
  | endBlock (env : Env) (btcHeight : Nat) (shouldAllowDeposits : Bool)
      (timestampingCommitment : Bytes)
  | elsewhere (other : Store)

def machine (host : Host) : CallMachine Store Operation ContractError where
  call store
    | .relayDeposit env btcTx btcHeight btcProof btcVout sigsetIndex dest =>
        store.relayDeposit host env btcTx btcHeight btcProof btcVout sigsetIndex dest
    | .addWithdrawal scriptPubkey amount => store.addWithdrawal host scriptPubkey amount
    | .sign xpub sigs cpIndex btcHeight => do
        let queue ← store.queue.sign host xpub sigs cpIndex btcHeight
        return { store with queue }
    | .relayCheckpoint btcHeight btcProof cpIndex =>
        store.relayCheckpoint host btcHeight btcProof cpIndex
    | .takePendingCompleted => do
        let (queue, _) ← store.queue.takePendingCompleted
        return { store with queue }
    | .maybeStep env btcHeight shouldAllowDeposits timestampingCommitment => do
        let (store, _) ← store.maybeStep host env btcHeight shouldAllowDeposits
          timestampingCommitment store.bitcoinConfig
        return store
    | .endBlock env btcHeight shouldAllowDeposits timestampingCommitment => do
        let (queue, _) ← store.queue.takePendingCompleted
        let (store, _) ← Store.maybeStep host env { store with queue } btcHeight
          shouldAllowDeposits timestampingCommitment store.bitcoinConfig
        return store
    | .elsewhere other => .ok { other with
        queue := store.queue
        feePool := store.feePool
        bitcoinConfig := store.bitcoinConfig
        checkpointConfig := store.checkpointConfig }

/-- The fee of a step is converted without overflow. -/
def StepFits (host : Host) (store : Store) (env : Env) (shouldAllowDeposits : Bool)
    (timestampingCommitment : Bytes) : Prop :=
  Outcome.Ensures (store.stepFees host env shouldAllowDeposits timestampingCommitment)
    fun cpFees => cpFees * store.bitcoinConfig.unitsPerSat < 2 ^ 63

/-- No conversion of an operation between integer types overflows. -/
def ConversionsFit (host : Host) (store : Store) : Operation → Prop
  | .relayDeposit _ _ _ _ _ sigsetIndex _ =>
      Outcome.Ensures (store.depositFee sigsetIndex) fun fee => fee < 2 ^ 63
  | .addWithdrawal scriptPubkey amount =>
      Outcome.Ensures (store.withdrawalFee scriptPubkey) fun fee =>
        fee < 2 ^ 63 ∧ amount - fee < 2 ^ 64
  | .maybeStep env _ shouldAllowDeposits timestampingCommitment =>
      StepFits host store env shouldAllowDeposits timestampingCommitment
  | .endBlock env _ shouldAllowDeposits timestampingCommitment =>
      Outcome.Ensures store.queue.takePendingCompleted fun taken =>
        StepFits host { store with queue := taken.1 } env shouldAllowDeposits
          timestampingCommitment
  | _ => True

instance (host : Host) (store : Store) (env : Env) (shouldAllowDeposits : Bool)
    (timestampingCommitment : Bytes) :
    Decidable (StepFits host store env shouldAllowDeposits timestampingCommitment) :=
  inferInstanceAs (Decidable (Outcome.Ensures _ _))

instance (host : Host) (store : Store) : (operation : Operation) →
    Decidable (ConversionsFit host store operation)
  | .relayDeposit .. => inferInstanceAs (Decidable (Outcome.Ensures _ _))
  | .addWithdrawal .. => inferInstanceAs (Decidable (Outcome.Ensures _ _))
  | .maybeStep .. => inferInstanceAs (Decidable (StepFits _ _ _ _ _))
  | .endBlock .. => inferInstanceAs (Decidable (Outcome.Ensures _ _))
  | .sign .. | .relayCheckpoint .. | .takePendingCompleted | .elsewhere _ =>
      inferInstanceAs (Decidable True)

/-- What has left the bridge in a run: the transfers handed out, the coins
burned, the remainders of withdrawals and the transfers of pruned
checkpoints. -/
structure Totals where
  handed : Nat
  burned : Nat
  remainders : Nat
  pruned : Nat
  deriving DecidableEq, Repr

def observe (before : Store) (operation : Operation) (after : Store) (totals : Totals) : Totals :=
  match operation with
  | .addWithdrawal scriptPubkey amount => { totals with
      burned := totals.burned + amount
      remainders := totals.remainders + before.remainder scriptPubkey amount }
  | .takePendingCompleted =>
      { totals with handed := totals.handed + totalAmount before.queue.payouts }
  | .maybeStep .. => { totals with
      pruned := totals.pruned + totalAmount (before.queue.prunedPending after.queue) }
  | .endBlock .. => { totals with
      handed := totals.handed + totalAmount before.queue.payouts
      pruned := totals.pruned +
        match before.queue.takePendingCompleted with
        | .ok (queue, _) => totalAmount (queue.prunedPending after.queue)
        | .error _ => 0 }
  | _ => totals

/-- The transfers handed out, the remainders and the pruned transfers, less
what was burned. -/
def Totals.net (totals : Totals) : Int :=
  totals.handed - totals.burned + totals.remainders + totals.pruned

/-- The surplus is what has left the bridge. -/
structure Balanced (store : Store) (totals : Totals) : Prop where
  shaped : store.queue.Shaped
  surplus_eq : store.surplus = totals.net

variable {host : Host} {store after : Store} {totals : Totals} {operation : Operation}

theorem call_sign_eq_ok {xpub : Xpub} {sigs : List Signature} {cpIndex btcHeight : Nat} :
    (machine host).call store (.sign xpub sigs cpIndex btcHeight) = .ok after ↔
      ∃ queue, store.queue.sign host xpub sigs cpIndex btcHeight = .ok queue ∧
        { store with queue } = after := by
  simp only [machine, Outcome.bind_eq_ok, Outcome.pure_eq_ok]

theorem call_takePendingCompleted_eq_ok :
    (machine host).call store .takePendingCompleted = .ok after ↔
      ∃ queue dests, store.queue.takePendingCompleted = .ok (queue, dests) ∧
        { store with queue } = after := by
  simp only [machine, Outcome.bind_eq_ok, Outcome.pure_eq_ok, Prod.exists]

theorem call_maybeStep_eq_ok {env : Env} {btcHeight : Nat} {shouldAllowDeposits : Bool}
    {commitment : Bytes} :
    (machine host).call store (.maybeStep env btcHeight shouldAllowDeposits commitment) =
        .ok after ↔
      ∃ pushed, store.maybeStep host env btcHeight shouldAllowDeposits commitment
        store.bitcoinConfig = .ok (after, pushed) := by
  simp only [machine, Outcome.bind_eq_ok, Outcome.pure_eq_ok, Prod.exists]
  constructor
  · rintro ⟨_, pushed, stepped, rfl⟩
    exact ⟨pushed, stepped⟩
  · rintro ⟨pushed, stepped⟩
    exact ⟨after, pushed, stepped, rfl⟩

theorem call_endBlock_eq_ok {env : Env} {btcHeight : Nat} {shouldAllowDeposits : Bool}
    {commitment : Bytes} :
    (machine host).call store (.endBlock env btcHeight shouldAllowDeposits commitment) =
        .ok after ↔
      ∃ queue dests, store.queue.takePendingCompleted = .ok (queue, dests) ∧
        ∃ pushed, Store.maybeStep host env { store with queue } btcHeight shouldAllowDeposits
          commitment store.bitcoinConfig = .ok (after, pushed) := by
  simp only [machine, Outcome.bind_eq_ok, Outcome.pure_eq_ok, Prod.exists]
  constructor
  · rintro ⟨queue, dests, taken, _, pushed, stepped, rfl⟩
    exact ⟨queue, dests, taken, pushed, stepped⟩
  · rintro ⟨queue, dests, taken, pushed, stepped⟩
    exact ⟨queue, dests, taken, after, pushed, stepped, rfl⟩

/-- Every operation moves value without losing any. -/
theorem Balanced.step (balanced : Balanced store totals)
    (fits : ConversionsFit host store operation)
    (called : (machine host).call store operation = .ok after) :
    Balanced after (observe store operation after totals) := by
  obtain ⟨shaped, surplusEq⟩ := balanced
  cases operation with
  | relayDeposit env btcTx btcHeight btcProof btcVout sigsetIndex dest =>
      refine ⟨Store.shaped_relayDeposit shaped called, ?_⟩
      rw [Store.surplus_relayDeposit shaped fits called, surplusEq]
      rfl
  | addWithdrawal scriptPubkey amount =>
      refine ⟨Store.shaped_addWithdrawal shaped called, ?_⟩
      rw [Store.surplus_addWithdrawal shaped fits called, surplusEq]
      simp only [observe, Totals.net]
      push_cast
      ring
  | sign xpub sigs cpIndex btcHeight =>
      obtain ⟨queue, signed, rfl⟩ := call_sign_eq_ok.mp called
      obtain ⟨sameReserve, samePending⟩ := QueueStore.reserve_sign signed
      refine ⟨shaped.sign signed, ?_⟩
      rw [Store.surplus, sameReserve, samePending]
      exact surplusEq
  | relayCheckpoint btcHeight btcProof cpIndex =>
      obtain ⟨-, -, rfl⟩ := Store.relayCheckpoint_eq_ok called
      exact ⟨shaped.withConfirmed (some cpIndex), surplusEq⟩
  | takePendingCompleted =>
      obtain ⟨queue, dests, taken, rfl⟩ := call_takePendingCompleted_eq_ok.mp called
      refine ⟨shaped.takePendingCompleted taken, ?_⟩
      rw [Store.surplus_takePendingCompleted shaped taken, surplusEq]
      simp only [observe, Totals.net]
      push_cast
      ring
  | maybeStep env btcHeight shouldAllowDeposits commitment =>
      obtain ⟨pushed, steppedOk⟩ := call_maybeStep_eq_ok.mp called
      refine ⟨Store.shaped_maybeStep shaped steppedOk, ?_⟩
      rw [Store.surplus_maybeStep fits steppedOk, surplusEq]
      simp only [observe, Totals.net]
      push_cast
      ring
  | endBlock env btcHeight shouldAllowDeposits commitment =>
      obtain ⟨queue, dests, taken, pushed, steppedOk⟩ := call_endBlock_eq_ok.mp called
      have takenShaped : ({ store with queue } : Store).queue.Shaped :=
        shaped.takePendingCompleted taken
      refine ⟨Store.shaped_maybeStep takenShaped steppedOk, ?_⟩
      rw [Store.surplus_maybeStep (fits _ taken) steppedOk,
        Store.surplus_takePendingCompleted shaped taken, surplusEq]
      simp only [observe, Totals.net, taken]
      push_cast
      ring
  | elsewhere other =>
      obtain rfl := Except.ok.inj called
      exact ⟨shaped, surplusEq⟩

/-- Every step is taken in the call that takes the pending transfers. -/
def Operation.Paired : Operation → Prop
  | .maybeStep .. => False
  | _ => True

instance (operation : Operation) : Decidable operation.Paired := by
  unfold Operation.Paired
  split <;> infer_instance

/-- Nothing is lost when checkpoints are pruned. -/
structure NothingPruned (store : Store) (totals : Totals) : Prop where
  shaped : store.queue.Shaped
  settled : store.queue.Settled
  pruned_eq : totals.pruned = 0

theorem NothingPruned.step (nothing : NothingPruned store totals) (paired : operation.Paired)
    (called : (machine host).call store operation = .ok after) :
    NothingPruned after (observe store operation after totals) := by
  obtain ⟨shaped, settled, prunedEq⟩ := nothing
  cases operation with
  | relayDeposit env btcTx btcHeight btcProof btcVout sigsetIndex dest =>
      exact ⟨Store.shaped_relayDeposit shaped called,
        (Store.pending_relayDeposit shaped settled called).1, prunedEq⟩
  | addWithdrawal scriptPubkey amount =>
      exact ⟨Store.shaped_addWithdrawal shaped called,
        (Store.pending_addWithdrawal shaped settled called).1, prunedEq⟩
  | sign xpub sigs cpIndex btcHeight =>
      obtain ⟨queue, signed, rfl⟩ := call_sign_eq_ok.mp called
      exact ⟨shaped.sign signed, (QueueStore.pending_sign settled signed).2, prunedEq⟩
  | relayCheckpoint btcHeight btcProof cpIndex =>
      obtain ⟨-, -, rfl⟩ := Store.relayCheckpoint_eq_ok called
      exact ⟨shaped.withConfirmed (some cpIndex), settled, prunedEq⟩
  | takePendingCompleted =>
      obtain ⟨queue, dests, taken, rfl⟩ := call_takePendingCompleted_eq_ok.mp called
      have paysOut := QueueStore.paysOut_of_takePendingCompleted shaped taken
      exact ⟨shaped.takePendingCompleted taken,
        settled.paysOut paysOut (QueueStore.indexes_takePendingCompleted taken).1, prunedEq⟩
  | maybeStep => exact absurd paired id
  | endBlock env btcHeight shouldAllowDeposits commitment =>
      obtain ⟨queue, dests, taken, pushed, steppedOk⟩ := call_endBlock_eq_ok.mp called
      have takenShaped : ({ store with queue } : Store).queue.Shaped :=
        shaped.takePendingCompleted taken
      obtain ⟨settledAfter, samePending, -⟩ :=
        Store.settled_endBlock shaped settled taken steppedOk
      have nothing : queue.prunedPending after.queue = [] := by
        have split := Store.pending_maybeStep steppedOk
        rw [samePending] at split
        exact List.self_eq_append_left.mp split
      refine ⟨Store.shaped_maybeStep takenShaped steppedOk, settledAfter, ?_⟩
      simp only [observe, taken, nothing, prunedEq, totalAmount_nil]
  | elsewhere other =>
      obtain rfl := Except.ok.inj called
      exact ⟨shaped, settled, prunedEq⟩

/-- The totals of a run. -/
def runTotals (host : Host) (start : Store) (operations : List Operation) : Totals :=
  (((machine host).observed observe).run
    (start, { handed := 0, burned := 0, remainders := 0, pruned := 0 }) operations).2

/-- A bridge that has not taken any deposit. -/
structure Fresh (store : Store) : Prop where
  checkpoints_eq : store.queue.checkpoints = []
  buildingIndex_eq : store.queue.buildingIndex = 0
  feePool_eq : store.feePool = 0

theorem run_balanced (host : Host) {start : Store} (fresh : Fresh start)
    {operations : List Operation}
    (permitted : (machine host).Permitted (ConversionsFit host) start operations) :
    Balanced ((machine host).run start operations) (runTotals host start operations) := by
  refine CallMachine.observed_invariant Balanced ?_ ?_ permitted
  · intro before totals operation after balanced fits called
    exact balanced.step fits called
  · refine ⟨.empty fresh.checkpoints_eq fresh.buildingIndex_eq, ?_⟩
    have pendingEq : start.queue.pending = [] := by
      rw [QueueStore.pending, fresh.checkpoints_eq]
      rfl
    rw [Store.surplus, QueueStore.reserve_empty fresh.checkpoints_eq, pendingEq, fresh.feePool_eq]
    simp [Totals.net]

theorem run_nothingPruned (host : Host) {start : Store} (fresh : Fresh start)
    {operations : List Operation} (paired : ∀ operation ∈ operations, operation.Paired) :
    NothingPruned ((machine host).run start operations) (runTotals host start operations) := by
  refine CallMachine.observed_invariant NothingPruned ?_ ?_
    (CallMachine.permitted_of_forall paired start)
  · intro before totals operation after nothing allowed called
    exact nothing.step allowed called
  · refine ⟨.empty fresh.checkpoints_eq fresh.buildingIndex_eq, ?_, rfl⟩
    intro index checkpoint found _
    exact absurd found (Window.item_ne_of_empty fresh.checkpoints_eq)

end Reserve

/-- In every run without overflowing conversions, the reserve holds the pending
transfers, the transfers handed out less what was burned, and the fee pool.
What it holds beyond that are the remainders of withdrawals and the transfers
of pruned checkpoints, and there are none of these if every step is taken in
the call that takes the pending transfers. -/
theorem Reserve.run_conserved (host : Host) {start : Store} (fresh : Fresh start)
    {operations : List Operation}
    (permitted : (machine host).Permitted (ConversionsFit host) start operations) :
    let store := (machine host).run start operations
    let totals := runTotals host start operations
    let obligations : Int :=
      totalAmount store.queue.pending + totals.handed - totals.burned + store.feePool
    obligations ≤ store.bitcoinConfig.unitsPerSat * store.queue.reserve ∧
      store.bitcoinConfig.unitsPerSat * store.queue.reserve - obligations =
        totals.remainders + totals.pruned ∧
      ((∀ operation ∈ operations, operation.Paired) → totals.pruned = 0) := by
  intro store totals obligations
  have balanced := (run_balanced host fresh permitted).surplus_eq
  have difference : store.bitcoinConfig.unitsPerSat * store.queue.reserve - obligations =
      totals.remainders + totals.pruned := by
    rw [Store.surplus, Totals.net] at balanced
    simp only [obligations, store, totals]
    linarith
  refine ⟨?_, difference, fun paired => (run_nothingPruned host fresh paired).pruned_eq⟩
  have positive : (0 : Int) ≤ totals.remainders + totals.pruned := by positivity
  linarith

namespace Sample

/-- The bridge before its first checkpoint. -/
def opened : Store := (Contract.machine host).run initial (openingCalls largeDepositTx)

theorem opened_fresh : Reserve.Fresh opened :=
  ⟨by decide +kernel, by decide +kernel, by decide +kernel⟩

/-- A step twelve days after the previous one, and the signature of the
checkpoint that it freezes. -/
def stepOperations (index : Nat) : List Reserve.Operation := [
  .maybeStep (env (1000 + MAX_CHECKPOINT_INTERVAL * (index + 1))) 7 true [2],
  .sign (xpub 1) [⟨(pubkey 1).bytes⟩] index 7]

/-- A deposit and so many steps after it, without taking its transfer. -/
def untakenOperations (count : Nat) : List Reserve.Operation := [
  .maybeStep (env 1000) 7 true [1],
  .relayDeposit (env 1010) largeDepositTx 7 (proofOf (largeDepositTx.txid host)) 0 0
    (.address "a")] ++ (List.range count).flatMap stepOperations

/-- The end of a block twelve days after the previous one, which takes the pending
transfers, and the signature of the checkpoint that it freezes. -/
def endOperations (index : Nat) : List Reserve.Operation := [
  .endBlock (env (1000 + MAX_CHECKPOINT_INTERVAL * (index + 1))) 7 true [2],
  .sign (xpub 1) [⟨(pubkey 1).bytes⟩] index 7]

/-- A deposit, four ends of blocks after it, and a withdrawal of which one unit is below a
satoshi. -/
def withdrawOperations : List Reserve.Operation := [
  .endBlock (env 1000) 7 true [1],
  .relayDeposit (env 1010) largeDepositTx 7 (proofOf (largeDepositTx.txid host)) 0 0
    (.address "a")] ++ (List.range 4).flatMap endOperations ++
  [.addWithdrawal [0x00, 0x14] 1000000000001]

end Sample

theorem Reserve.run_conserved_sample :
    let store := (machine Sample.host).run Sample.opened Sample.withdrawOperations
    let totals := runTotals Sample.host Sample.opened Sample.withdrawOperations
    0 < totals.handed ∧ totals.burned = 1000000000001 ∧ totals.remainders = 1 ∧
      store.bitcoinConfig.unitsPerSat * store.queue.reserve -
        (totalAmount store.queue.pending + totals.handed - totals.burned + store.feePool) =
          totals.remainders ∧ totals.pruned = 0 := by
  intro store totals
  have permitted : (machine Sample.host).Permitted (ConversionsFit Sample.host) Sample.opened
      Sample.withdrawOperations := by decide +kernel
  obtain ⟨-, difference, noneLost⟩ := run_conserved Sample.host Sample.opened_fresh permitted
  have nothingPruned : totals.pruned = 0 := noneLost (by decide +kernel)
  refine ⟨by decide +kernel, by decide +kernel, by decide +kernel, ?_, nothingPruned⟩
  rw [difference]
  change (totals.remainders : Int) + totals.pruned = totals.remainders
  rw [nothingPruned]
  exact add_zero _

/-- If steps are taken without taking the pending transfers, the eleventh
checkpoint drops a transfer that has not been handed out. -/
theorem Reserve.run_not_exact :
    let store := (machine Sample.host).run Sample.opened (Sample.untakenOperations 10)
    let totals := runTotals Sample.host Sample.opened (Sample.untakenOperations 10)
    Fresh Sample.opened ∧
      (machine Sample.host).Permitted (ConversionsFit Sample.host) Sample.opened
        (Sample.untakenOperations 10) ∧
      1 ≤ store.checkpointConfig.maxInputs ∧ 2 ≤ store.checkpointConfig.maxOutputs ∧
      totals.remainders = 0 ∧
      store.bitcoinConfig.unitsPerSat * store.queue.reserve -
        (totalAmount store.queue.pending + totals.handed - totals.burned + store.feePool) =
          9976537000000 := by
  intro store totals
  exact ⟨Sample.opened_fresh, by decide +kernel, by decide +kernel, by decide +kernel,
    by decide +kernel, by decide +kernel⟩

end CwBitcoin
