import CwBitcoin.App
import CwBitcoin.QueueAccess

/-!
# What the operations of the bridge do to the queue

One lemma for each operation says everything that a successful call does to
the checkpoints, their indexes, the processed outpoints and the fee pool.
-/

namespace CwBitcoin

namespace Checkpoint

def collect (checkpoint : Checkpoint) (fee : Nat) : Checkpoint :=
  { checkpoint with feesCollected := checkpoint.feesCollected + fee }

/-- The checkpoint with a further input in its transaction. -/
def withInput (checkpoint : Checkpoint) (input : Input) : Checkpoint :=
  checkpoint.setFirstTx { checkpoint.mainTx with
    input := checkpoint.mainTx.input ++ [input] }

/-- The checkpoint with a further output in its transaction. -/
def withOutput (checkpoint : Checkpoint) (output : TxOut) : Checkpoint :=
  checkpoint.setFirstTx { checkpoint.mainTx with
    output := checkpoint.mainTx.output ++ [output] }

variable {checkpoint : Checkpoint} {tx : BitcoinTx}

/-- A credited deposit is one more input of the transaction. -/
theorem mainTx_credited (first : checkpoint.firstTx = .ok tx) (fee : Nat) (input : Input)
    (dest : Dest) (coin : Coin) :
    (((checkpoint.collect fee).withInput input).insertPending dest coin).mainTx =
      { checkpoint.mainTx with input := checkpoint.mainTx.input ++ [input] } :=
  mainTx_setFirstTx first

/-- A withdrawal is one more output of the transaction. -/
theorem mainTx_withdrawn (first : checkpoint.firstTx = .ok tx) (fee : Nat) (output : TxOut) :
    ((checkpoint.collect fee).withOutput output).mainTx =
      { checkpoint.mainTx with output := checkpoint.mainTx.output ++ [output] } :=
  mainTx_setFirstTx first

end Checkpoint

namespace Store

variable {host : Host} {env : Env} {store after : Store}

theorem giveMinerFee_eq_ok {fee : Nat} (fits : fee < 2 ^ 64)
    (gave : store.giveMinerFee fee = .ok after) :
    ∃ older building, store.queue.checkpoints = older ++ [building] ∧
      store.bitcoinConfig.unitsPerSat ≠ 0 ∧
      after = { store with
        feePool := store.feePool + asI64 fee
        queue := { store.queue with
          checkpoints := older ++ [building.collect (fee / store.bitcoinConfig.unitsPerSat)] } } := by
  have feeEq : asU64 fee = fee := Nat.mod_eq_of_lt fits
  simp only [giveMinerFee, feeEq, Outcome.bind_eq_ok, checkedI64_eq_ok, Outcome.checkedDiv_eq_ok,
    Outcome.checkedAdd_eq_ok, Outcome.pure_eq_ok] at gave
  obtain ⟨feePool, ⟨-, rfl⟩, building, read, fee, ⟨unitsNe, rfl⟩, collected, ⟨-, rfl⟩, queue,
    wrote, rfl⟩ := gave
  obtain ⟨-, older, split⟩ := QueueStore.building_eq_ok.mp read
  obtain rfl := QueueStore.set_building split wrote
  exact ⟨older, building, split, unitsNe, rfl⟩

/-- What is written after a miner fee replaces the checkpoint that collected it. -/
theorem set_building_of_giveMinerFee {fee : Nat} {paid : Store} {charged replacement : Checkpoint}
    {queue : QueueStore} (fits : fee < 2 ^ 64) (gave : store.giveMinerFee fee = .ok paid)
    (read : paid.queue.building = .ok charged)
    (wrote : paid.queue.set paid.queue.buildingIndex replacement = .ok queue) :
    ∃ older building, store.queue.checkpoints = older ++ [building] ∧
      charged = building.collect (fee / store.bitcoinConfig.unitsPerSat) ∧
      { paid with queue } = { store with
        feePool := store.feePool + asI64 fee
        queue := { store.queue with checkpoints := older ++ [replacement] } } := by
  obtain ⟨older, building, split, -, rfl⟩ := giveMinerFee_eq_ok fits gave
  obtain ⟨-, others, splitPaid⟩ := QueueStore.building_eq_ok.mp read
  obtain ⟨rfl, last⟩ := List.append_inj' splitPaid rfl
  obtain rfl := QueueStore.set_building splitPaid wrote
  exact ⟨older, building, split, (List.cons.inj last).1.symm, rfl⟩

/-- A credited deposit adds its input and one pending transfer, and its amount
is divided between the transfer and the fee pool. -/
theorem creditDeposit_eq_ok {input : Input} {feeRate : Nat} {dest : Dest}
    (credited : store.creditDeposit input feeRate dest = .ok after) :
    ∃ older building fee coin, store.queue.checkpoints = older ++ [building] ∧
      (∃ tx, building.firstTx = .ok tx) ∧
      (∃ size, input.estVsize = .ok size ∧
        store.calcMinimumDepositFees size feeRate = .ok fee) ∧
      fee < 2 ^ 64 ∧ coin.amount + fee = input.amount * store.bitcoinConfig.unitsPerSat ∧
      after = { store with
        feePool := store.feePool + asI64 fee
        queue := { store.queue with
          checkpoints := older ++
            [((building.collect (fee / store.bitcoinConfig.unitsPerSat)).withInput
              input).insertPending dest coin] } } := by
  simp only [creditDeposit, Outcome.bind_eq_ok, Outcome.checkedMul_eq_ok, Outcome.checkedAdd_eq_ok,
    Outcome.require_eq_ok, Outcome.pure_eq_ok] at credited
  obtain ⟨inputSize, sized, mintAmount, ⟨-, rfl⟩, fee, charged, _, ⟨feeFits, rfl⟩, -, covered,
    paid, gave, building, read, checkpointTx, first, queue, wrote, rfl⟩ := credited
  simp only [calcDepositFee, Nat.add_zero] at feeFits covered gave
  obtain ⟨older, unpaid, split, rfl, afterEq⟩ :=
    set_building_of_giveMinerFee feeFits gave read wrote
  refine ⟨older, unpaid, fee, ⟨getFullBtcDenom store.config.tokenFactoryAddr, _⟩, split,
    ⟨checkpointTx, first⟩, ⟨inputSize, sized, charged⟩, feeFits, Nat.sub_add_cancel covered, ?_⟩
  rw [afterEq, Checkpoint.withInput, Checkpoint.mainTx_of_firstTx first]
  rfl

/-- A relayed deposit pays to a signatory set of the queue and to its
destination, and has not been processed.  It is either too late and recovered,
or credited. -/
theorem relayDeposit_eq_ok {btcTx : Transaction} {btcHeight btcVout sigsetIndex : Nat}
    {btcProof : PartialMerkleTree} {dest : Dest}
    (relayed : store.relayDeposit host env btcTx btcHeight btcProof btcVout sigsetIndex dest =
      .ok after) :
    ∃ output checkpoint redeemScript depositTimeout,
      btcTx.output[btcVout]? = some output ∧
      store.queue.get sigsetIndex = .ok checkpoint ∧
      checkpoint.sigset.redeemScript (dest.commitmentBytes host)
        store.checkpointConfig.sigsetThreshold = .ok redeemScript ∧
      output.scriptPubkey = toV0P2wsh host redeemScript ∧
      ⟨btcTx.txid host, btcVout⟩ ∉ store.outpoints ∧
      ((∃ recoveryTxs, after =
          { store.insertOutpoint ⟨btcTx.txid host, btcVout⟩ depositTimeout with recoveryTxs }) ∨
        ∃ input, Input.new host ⟨btcTx.txid host, btcVout⟩ checkpoint.sigset
            (dest.commitmentBytes host) output.value store.checkpointConfig.sigsetThreshold =
              .ok input ∧
          (store.insertOutpoint ⟨btcTx.txid host, btcVout⟩ depositTimeout).creditDeposit input
            checkpoint.feeRate dest = .ok after) := by
  simp only [relayDeposit, Outcome.bind_eq_ok, Outcome.require_eq_ok, Outcome.getOr_fail_eq_ok,
    SignatorySet.outputScript, Outcome.pure_eq_ok] at relayed
  obtain ⟨txid, -, -, -, output, outputAt, checkpoint, got, expectedScript,
    ⟨redeemScript, redeemed, rfl⟩, -, pays, -, fresh, depositTimeout, -, -, -, relayed⟩ := relayed
  refine ⟨output, checkpoint, redeemScript, depositTimeout, outputAt, got, redeemed, pays, fresh, ?_⟩
  split at relayed
  · simp only [Outcome.bind_eq_ok, Outcome.pure_eq_ok] at relayed
    obtain ⟨building, -, recoveryTxs, -, rfl⟩ := relayed
    exact Or.inl ⟨recoveryTxs, rfl⟩
  · simp only [Outcome.bind_eq_ok] at relayed
    obtain ⟨input, made, credited⟩ := relayed
    exact Or.inr ⟨input, made, credited⟩

/-- The fee of a withdrawal at the rate of the checkpoint under construction. -/
def withdrawalFee (store : Store) (scriptPubkey : Script) : ContractResult Nat := do
  let building ← store.queue.building
  store.calcMinimumWithdrawalFees scriptPubkey.length building.feeRate

/-- The fee of a deposit to the signatory set of the given checkpoint. -/
def depositFee (store : Store) (sigsetIndex : Nat) : ContractResult Nat := do
  let checkpoint ← store.queue.get sigsetIndex
  let inputSize ← Outcome.checkedAdd 64 checkpoint.sigset.estWitnessVsize 40
  store.calcMinimumDepositFees inputSize checkpoint.feeRate

theorem calcMinimumFees_lt {vsize feeRate fee : Nat}
    (charged : store.calcMinimumFees vsize feeRate = .ok fee) : fee < 2 ^ 64 := by
  simp only [calcMinimumFees, Outcome.bind_eq_ok, Outcome.checkedMul_eq_ok] at charged
  obtain ⟨scaled, -, charge, -, fits, rfl⟩ := charged
  exact fits

/-- A withdrawal adds an output, and its amount is divided between the output
and the fee pool, up to a remainder of less than one satoshi. -/
theorem addWithdrawal_eq_ok {scriptPubkey : Script} {amount : Nat}
    (added : store.addWithdrawal host scriptPubkey amount = .ok after) :
    ∃ older building fee, store.queue.checkpoints = older ++ [building] ∧
      (∃ tx, building.firstTx = .ok tx) ∧ store.withdrawalFee scriptPubkey = .ok fee ∧
      fee < 2 ^ 64 ∧ fee ≤ amount ∧ store.bitcoinConfig.unitsPerSat ≠ 0 ∧
      after = { store with
        feePool := store.feePool + asI64 fee
        queue := { store.queue with
          checkpoints := older ++
            [(building.collect (fee / store.bitcoinConfig.unitsPerSat)).withOutput
              ⟨asU64 (amount - fee) / store.bitcoinConfig.unitsPerSat, scriptPubkey⟩] } } := by
  simp only [addWithdrawal, Outcome.bind_eq_ok, Outcome.require_eq_ok, Outcome.checkedDiv_eq_ok,
    Outcome.pure_eq_ok] at added
  obtain ⟨-, -, -, -, charging, readCharging, fee, charged, -, covered, paid, gave, value,
    ⟨unitsNe, rfl⟩, -, -, building, read, checkpointTx, first, queue, wrote, rfl⟩ := added
  have chargedFee : store.withdrawalFee scriptPubkey = .ok fee := by
    simp only [withdrawalFee, Outcome.bind_eq_ok]
    exact ⟨charging, readCharging, charged⟩
  have feeFits : fee < 2 ^ 64 := by
    simp only [calcMinimumWithdrawalFees, Outcome.bind_eq_ok] at charged
    obtain ⟨vsize, -, charged⟩ := charged
    exact calcMinimumFees_lt charged
  obtain ⟨older, unpaid, split, rfl, afterEq⟩ :=
    set_building_of_giveMinerFee feeFits gave read wrote
  refine ⟨older, unpaid, fee, split, ⟨checkpointTx, first⟩, chargedFee, feeFits, covered, unitsNe, ?_⟩
  rw [afterEq, Checkpoint.withOutput, Checkpoint.mainTx_of_firstTx first]

theorem relayCheckpoint_eq_ok {btcHeight cpIndex : Nat} {btcProof : PartialMerkleTree}
    (relayed : store.relayCheckpoint host btcHeight btcProof cpIndex = .ok after) :
    (∃ checkpoint, store.queue.get cpIndex = .ok checkpoint) ∧
      (∀ confIndex ∈ store.queue.confirmedIndex, confIndex < cpIndex) ∧
      after = { store with queue := { store.queue with confirmedIndex := some cpIndex } } := by
  simp only [relayCheckpoint, Outcome.bind_eq_ok, Outcome.require_eq_ok,
    Outcome.pure_eq_ok] at relayed
  obtain ⟨-, later, txid, -, checkpoint, got, btcTx, -, -, -, rfl⟩ := relayed
  exact ⟨⟨checkpoint, got⟩, later, rfl⟩

end Store

namespace QueueStore

variable {host : Host} {queue after : QueueStore}

/-- Signing a frozen checkpoint changes its signatures, and completes it at
most. -/
theorem sign_eq_ok {xpub : Xpub} {sigs : List Signature} {index btcHeight : Nat}
    (signed : queue.sign host xpub sigs index btcHeight = .ok after) :
    ∃ checkpoint signedCheckpoint, queue.get index = .ok checkpoint ∧
      checkpoint.status ≠ .building ∧
      signedCheckpoint.unsignedTxs = checkpoint.unsignedTxs ∧
      signedCheckpoint = { checkpoint with
        batches := signedCheckpoint.batches
        signedAtBtcHeight := signedCheckpoint.signedAtBtcHeight
        status := signedCheckpoint.status } ∧
      (signedCheckpoint.status = checkpoint.status ∨ signedCheckpoint.status = .complete) ∧
      after = queue.put index signedCheckpoint := by
  simp only [sign, Outcome.bind_eq_ok, Outcome.require_eq_ok] at signed
  obtain ⟨checkpoint, got, -, notBuilding, signedCheckpoint, signedOk, wrote⟩ := signed
  obtain ⟨sameTxs, sameFields⟩ := Checkpoint.sign_eq_ok signedOk
  obtain ⟨-, -, -, rfl⟩ := set_eq_ok.mp wrote
  refine ⟨checkpoint, _, got, notBuilding, ?_, ?_, ?_, rfl⟩
  · split <;> exact sameTxs
  · split <;> rw [sameFields]
  · split
    · exact Or.inr rfl
    · exact Or.inl (by rw [sameFields])

section TakePending

variable {deque : DequeSet} {dests : Payouts}

theorem takePendingConfirmed_eq_ok
    (taken : queue.takePendingConfirmed deque = .ok (after, dests)) :
    (after = queue ∧ dests = []) ∨
      ∃ unhandled cleared firstUnhandled, queue.unhandledConfirmed = .ok unhandled ∧
        queue.takePending unhandled deque = .ok (cleared, dests) ∧
        after = { cleared with firstUnhandledConfirmedIndex := firstUnhandled } := by
  unfold takePendingConfirmed at taken
  split at taken
  · simp only [Except.ok.injEq, Prod.mk.injEq] at taken
    exact Or.inl ⟨taken.1.symm, taken.2.symm⟩
  · simp at taken
  · rename_i unhandled read
    simp only [Outcome.bind_eq_ok] at taken
    obtain ⟨⟨cleared, taken'⟩, takenEach, taken⟩ := taken
    right
    split at taken
    · simp only [Outcome.pure_eq_ok, Prod.mk.injEq] at taken
      obtain ⟨rfl, rfl⟩ := taken
      exact ⟨unhandled, cleared, cleared.firstUnhandledConfirmedIndex, read, takenEach, rfl⟩
    · simp only [Outcome.bind_eq_ok, Outcome.pure_eq_ok, Prod.mk.injEq] at taken
      obtain ⟨next, -, rfl, rfl⟩ := taken
      exact ⟨unhandled, cleared, next, read, takenEach, rfl⟩

/-- Either no checkpoint is completed yet, or everything from the confirmed
checkpoint to the last completed one is handed out. -/
theorem takePendingCompleted_eq_ok
    (taken : queue.takePendingCompleted deque = .ok (after, dests)) :
    ∃ cleared confirmedDests, queue.takePendingConfirmed deque = .ok (cleared, confirmedDests) ∧
      ((cleared.lastCompletedIndex = .error (.error noCompleted) ∧ after = cleared ∧ dests = []) ∨
        ∃ lastCompletedIndex completedDests,
          cleared.lastCompletedIndex = .ok lastCompletedIndex ∧
          cleared.takePending (List.range' (cleared.confirmedIndex.getD 0)
            (lastCompletedIndex + 1 - cleared.confirmedIndex.getD 0)) deque =
              .ok (after, completedDests) ∧
          dests = confirmedDests ++ completedDests) := by
  simp only [takePendingCompleted, Outcome.bind_eq_ok] at taken
  obtain ⟨⟨cleared, confirmedDests⟩, takenConfirmed, taken⟩ := taken
  refine ⟨cleared, confirmedDests, takenConfirmed, ?_⟩
  split at taken
  · rename_i error read
    split at taken
    · rename_i isNoCompleted
      simp only [Outcome.pure_eq_ok, Prod.mk.injEq] at taken
      exact Or.inl ⟨by rw [read, isNoCompleted], taken.1.symm, taken.2.symm⟩
    · simp at taken
  · simp at taken
  · rename_i lastCompletedIndex read
    simp only [Outcome.bind_eq_ok, Outcome.pure_eq_ok, Prod.mk.injEq] at taken
    obtain ⟨⟨last, completedDests⟩, takenCompleted, rfl, rfl⟩ := taken
    exact Or.inr ⟨lastCompletedIndex, completedDests, read, takenCompleted, rfl⟩

section Writes

variable (Inv : QueueStore → Prop)
  (write : ∀ queue index checkpoint next, Inv queue → queue.get index = .ok checkpoint →
    queue.set index { checkpoint with pending := [] } deque = .ok next → Inv next)
  (advance : ∀ queue firstUnhandled, Inv queue →
    Inv { queue with firstUnhandledConfirmedIndex := firstUnhandled })

include write

/-- What survives that one checkpoint hands out its pending transfers survives
that several do. -/
theorem takePending_write {indexes : List Nat} (holds : Inv queue)
    (taken : queue.takePending indexes deque = .ok (after, dests)) : Inv after := by
  induction indexes generalizing queue dests with
  | nil =>
      simp only [takePending, Except.ok.injEq, Prod.mk.injEq] at taken
      rwa [← taken.1]
  | cons index rest ih =>
      simp only [takePending, Outcome.bind_eq_ok, Outcome.pure_eq_ok, Prod.mk.injEq] at taken
      obtain ⟨checkpoint, got, cleared, wrote, ⟨last, others⟩, takenRest, rfl, -⟩ := taken
      exact ih (write queue index checkpoint cleared holds got wrote) takenRest

include advance

theorem takePendingConfirmed_write (holds : Inv queue)
    (taken : queue.takePendingConfirmed deque = .ok (after, dests)) : Inv after := by
  rcases takePendingConfirmed_eq_ok taken with ⟨rfl, -⟩ | ⟨_, _, next, -, each, rfl⟩
  · exact holds
  · exact advance _ next (takePending_write Inv write holds each)

theorem takePendingCompleted_write (holds : Inv queue)
    (taken : queue.takePendingCompleted deque = .ok (after, dests)) : Inv after := by
  obtain ⟨cleared, confirmedDests, takenConfirmed, taken⟩ := takePendingCompleted_eq_ok taken
  have clearedHolds : Inv cleared :=
    takePendingConfirmed_write Inv write advance holds takenConfirmed
  rcases taken with ⟨-, rfl, -⟩ | ⟨_, _, -, each, -⟩
  · exact clearedHolds
  · exact takePending_write Inv write clearedHolds each

end Writes

section Clear

variable (Inv : QueueStore → Prop)
  (clear : ∀ queue index checkpoint, Inv queue → queue.get index = .ok checkpoint →
    Inv (queue.put index { checkpoint with pending := [] }))
  (advance : ∀ queue firstUnhandled, Inv queue →
    Inv { queue with firstUnhandledConfirmedIndex := firstUnhandled })

include clear

theorem write_of_clear (queue : QueueStore) (index : Nat) (checkpoint : Checkpoint)
    (next : QueueStore) (holds : Inv queue) (got : queue.get index = .ok checkpoint)
    (wrote : queue.set index { checkpoint with pending := [] } = .ok next) : Inv next := by
  obtain ⟨-, -, -, rfl⟩ := set_eq_ok.mp wrote
  exact clear queue index checkpoint holds got

theorem takePending_invariant {indexes : List Nat} (holds : Inv queue)
    (taken : queue.takePending indexes = .ok (after, dests)) : Inv after :=
  takePending_write Inv (write_of_clear Inv clear) holds taken

include advance

theorem takePendingConfirmed_invariant (holds : Inv queue)
    (taken : queue.takePendingConfirmed = .ok (after, dests)) : Inv after :=
  takePendingConfirmed_write Inv (write_of_clear Inv clear) advance holds taken

theorem takePendingCompleted_invariant (holds : Inv queue)
    (taken : queue.takePendingCompleted = .ok (after, dests)) : Inv after :=
  takePendingCompleted_write Inv (write_of_clear Inv clear) advance holds taken

end Clear

theorem indexes_takePendingCompleted (taken : queue.takePendingCompleted = .ok (after, dests)) :
    after.buildingIndex = queue.buildingIndex ∧ after.confirmedIndex = queue.confirmedIndex :=
  takePendingCompleted_invariant (fun current => current.buildingIndex = queue.buildingIndex ∧
    current.confirmedIndex = queue.confirmedIndex) (fun _ _ _ holds _ => holds)
    (fun _ _ holds => holds) ⟨rfl, rfl⟩ taken

/-- Taking the pending transfers drops no checkpoint. -/
theorem length_takePendingCompleted (taken : queue.takePendingCompleted = .ok (after, dests)) :
    after.checkpoints.length = queue.checkpoints.length := by
  refine takePendingCompleted_invariant
    (fun current => current.checkpoints.length = queue.checkpoints.length) ?_ ?_ rfl taken
  · intro current index checkpoint same _
    rw [put, Window.put, List.length_set]
    exact same
  · exact fun _ _ same => same

end TakePending

end QueueStore

end CwBitcoin
