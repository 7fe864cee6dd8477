import CwBitcoin.ChangeRates
import CwBitcoin.ToSign

/-!
# Queries

What the contract answers to the relayers, the signatories and the users of the bridge.
-/

namespace CwBitcoin

namespace QueueStore

/-- The last completed checkpoint, as a Bitcoin transaction. -/
def lastCompletedTx (host : Host) (queue : QueueStore) : ContractResult Transaction := do
  let checkpoint ← queue.lastCompleted
  checkpoint.checkpointTx host

/-- The latest completed checkpoints, as Bitcoin transactions. -/
def completedTxs (host : Host) (queue : QueueStore) (limit : Nat) :
    ContractResult (List Transaction) := do
  let completed ← queue.completed limit
  completed.mapM fun checkpoint => checkpoint.checkpointTx host

end QueueStore

namespace Store

variable (host : Host) (store : Store)

/-- The checkpoint with the given index, or the one under construction. -/
def getCheckpoint (index : Option Nat) : ContractResult Checkpoint :=
  store.queue.get (index.getD store.queue.buildingIndex)

def queryDepositFees (index : Option Nat) : ContractResult Nat := do
  let checkpoint ← store.getCheckpoint index
  let inputVsize ← Outcome.checkedAdd 64 checkpoint.sigset.estWitnessVsize 40
  store.calcMinimumDepositFees inputVsize checkpoint.feeRate

def queryWithdrawalFees (address : String) (index : Option Nat) : ContractResult Nat := do
  let checkpoint ← store.getCheckpoint index
  let script ← Contract.addressScript host address
  store.calcMinimumWithdrawalFees script.length checkpoint.feeRate

def queryCheckpointTx (index : Option Nat) : ContractResult Transaction := do
  let checkpoint ← store.getCheckpoint index
  checkpoint.checkpointTx host

def queryLastCompleteTx : ContractResult Transaction := store.queue.lastCompletedTx host

def queryCompleteCheckpointTxs (limit : Nat) : ContractResult (List Transaction) :=
  store.queue.completedTxs host limit

/-- The messages and signatory sets for which the signatory is asked to sign a checkpoint. -/
def querySigningTxsAtCheckpointIndex (xpub : Xpub) (cpIndex : Nat) :
    ContractResult (List (Bytes × Nat)) := do
  let checkpoint ← store.queue.get cpIndex
  Outcome.require (checkpoint.status = .signing) (.app "checkpoint is not signing")
  checkpoint.toSign host xpub

/-- The Bitcoin that the last completed checkpoint keeps in the reserve. -/
def queryValueLocked : ContractResult Nat := do
  let checkpoint ← store.queue.lastCompleted
  checkpoint.reserveValue host

end Store

/-- While a checkpoint waits for signatures and no counter overflows, those of a signatory
are accepted exactly when they answer, one by one, what the signatory is asked to sign. -/
theorem Store.exists_sign_iff_answers {host : Host} {store : Store} {xpub : Xpub}
    {wanted : List (Bytes × Nat)} {sigs : List Signature} {cpIndex btcHeight : Nat}
    (asked : store.querySigningTxsAtCheckpointIndex host xpub cpIndex = .ok wanted)
    (fit : ∀ checkpoint ∈ store.queue.window.item cpIndex, checkpoint.CountersFit host xpub) :
    (∃ after, store.queue.sign host xpub sigs cpIndex btcHeight = .ok after) ↔
      List.Forall₂ (Answers host xpub) sigs wanted := by
  simp only [querySigningTxsAtCheckpointIndex, Outcome.bind_eq_ok, Outcome.require_eq_ok] at asked
  obtain ⟨checkpoint, got, -, isSigning, toSign⟩ := asked
  have notBuilding : checkpoint.status ≠ .building := by simp [isSigning]
  obtain ⟨aligned, found⟩ := QueueStore.get_eq_ok.mp got
  constructor
  · rintro ⟨after, signedOk⟩
    simp only [QueueStore.sign, got, Outcome.ok_bind, Outcome.bind_eq_ok] at signedOk
    obtain ⟨-, -, signed, checkpointSigned, -⟩ := signedOk
    obtain ⟨answered, -⟩ := Checkpoint.exists_sign_iff.mp ⟨signed, checkpointSigned⟩
    obtain ⟨others, othersAsked, answers⟩ := answered
    obtain rfl := Except.ok.inj (toSign.symm.trans othersAsked)
    exact answers
  · intro answers
    obtain ⟨signed, checkpointSigned⟩ := Checkpoint.exists_sign_iff.mpr
      ⟨⟨wanted, toSign, answers⟩, fit checkpoint found⟩
    have wrote (replaced : Checkpoint) : store.queue.set cpIndex replaced =
        .ok (store.queue.put cpIndex replaced) :=
      QueueStore.set_eq_ok.mpr ⟨aligned, Window.first_le_of_item found,
        Window.le_last_of_item aligned.window found, rfl⟩
    refine ⟨_, Eq.trans ?_ (wrote (checkpoint.completed signed))⟩
    rw [QueueStore.sign, got, Outcome.ok_bind, Outcome.require, if_pos notBuilding,
      Outcome.ok_bind, checkpointSigned, Outcome.ok_bind]
    rfl

end CwBitcoin
