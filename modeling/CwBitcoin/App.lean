import CwBitcoin.CheckpointQueue
import CwBitcoin.Fee
import CwBitcoin.Recovery

/-!
# The bridge

Deposits that are proven to be in a Bitcoin block enter the checkpoint under
construction, withdrawals become its outputs, and the pending transfers of
complete checkpoints are handed out.
-/

namespace CwBitcoin

/-- The bridge fee of a deposit. -/
def calcDepositFee (_amount : Nat) : Nat := 0

/-- The pending transfers of the checkpoints that a call takes them from. -/
abbrev Payouts := List (List (Dest × Coin))

namespace QueueStore

/-- Take the pending transfers of the checkpoints at the given indexes. -/
def takePending (queue : QueueStore) (indexes : List Nat) (deque : DequeSet := .element) :
    ContractResult (QueueStore × Payouts) :=
  match indexes with
  | [] => .ok (queue, [])
  | index :: rest => do
      let checkpoint ← queue.get index
      let queue ← queue.set index { checkpoint with pending := [] } deque
      let (queue, dests) ← takePending queue rest deque
      return (queue, checkpoint.pending :: dests)

/-- Take the pending transfers of the confirmed checkpoints that have not been
handled. -/
def takePendingConfirmed (queue : QueueStore) (deque : DequeSet := .element) :
    ContractResult (QueueStore × Payouts) :=
  match queue.unhandledConfirmed with
  | .error (.error _) => .ok (queue, [])
  | .error .panic => Outcome.abort
  | .ok unhandled => do
      let (queue, dests) ← queue.takePending unhandled deque
      match unhandled.getLast? with
      | none => return (queue, dests)
      | some last => do
          let firstUnhandledConfirmedIndex ← Outcome.checkedAdd 32 last 1
          return ({ queue with firstUnhandledConfirmedIndex }, dests)

/-- Take the pending transfers of the checkpoints that are fully signed. -/
def takePendingCompleted (queue : QueueStore) (deque : DequeSet := .element) :
    ContractResult (QueueStore × Payouts) := do
  let (queue, confirmedDests) ← queue.takePendingConfirmed deque
  match queue.lastCompletedIndex with
  | .error (.error error) =>
      -- The transfers collected above are dropped here.
      if error = noCompleted then return (queue, []) else Outcome.fail error
  | .error .panic => Outcome.abort
  | .ok lastCompletedIndex => do
      let confirmedIndex := queue.confirmedIndex.getD 0
      let (queue, completedDests) ← queue.takePending
        (List.range' confirmedIndex (lastCompletedIndex + 1 - confirmedIndex)) deque
      return (queue, confirmedDests ++ completedDests)

end QueueStore

namespace Store

/-- The transaction that a partial Merkle tree proves to be in a block with
enough confirmations. -/
def provenTxid (host : Host) (store : Store) (btcHeight : Nat) (btcProof : PartialMerkleTree)
    (minConfirmations : Nat) : ContractResult Bytes := do
  let found ← HeaderQueue.getByHeight store.headers btcHeight none
  let btcHeader ← Outcome.getOr (Outcome.fail (.app "Invalid bitcoin block height")) found
  let confirmations ← Outcome.checkedSub (HeaderQueue.height store.headers) btcHeight
  Outcome.require (minConfirmations ≤ confirmations) (.app "Block is not sufficiently confirmed")
  let (proofMerkleRoot, txids) ← Outcome.getOr (Outcome.fail .bitcoinMerkleBlockError)
    (host.extractMatches btcProof)
  Outcome.require (proofMerkleRoot = btcHeader.merkleRoot)
    (.app "Bitcoin merkle proof does not match header")
  match txids with
  | [txid] => return txid
  | _ => Outcome.fail (.app "Bitcoin merkle proof contains an invalid number of txids")

/-- A fee of so many virtual bytes for a user of the bridge, in units of the
bridged coin. -/
def calcMinimumFees (store : Store) (vsize feeRate : Nat) : ContractResult Nat := do
  let fee ← Outcome.checkedMul 64 vsize feeRate
  let fee ← Outcome.checkedMul 64 fee store.checkpointConfig.userFeeFactor
  Outcome.checkedMul 64 (fee / 10000) store.bitcoinConfig.unitsPerSat

def calcMinimumDepositFees (store : Store) (inputVsize feeRate : Nat) : ContractResult Nat :=
  store.calcMinimumFees inputVsize feeRate

def calcMinimumWithdrawalFees (store : Store) (scriptPubkeyLength feeRate : Nat) :
    ContractResult Nat := do
  let vsize ← Outcome.checkedAdd 64 9 scriptPubkeyLength
  store.calcMinimumFees vsize feeRate

/-- Collect a fee for the miners in the fee pool and in the checkpoint under
construction. -/
def giveMinerFee (store : Store) (amount : Nat) (deque : DequeSet := .element) :
    ContractResult Store := do
  let feePool ← checkedI64 (store.feePool + asI64 (asU64 amount))
  let checkpoint ← store.queue.building
  let fee ← Outcome.checkedDiv (asU64 amount) store.bitcoinConfig.unitsPerSat
  let feesCollected ← Outcome.checkedAdd 64 checkpoint.feesCollected fee
  let queue ← store.queue.set store.queue.buildingIndex { checkpoint with feesCollected } deque
  return { store with feePool, queue }

/-- Record a processed outpoint with the time at which it expires. -/
def insertOutpoint (store : Store) (outpoint : OutPoint) (expiration : Nat) : Store :=
  { store with
    outpoints := outpoint :: store.outpoints
    expirationQueue := (expiration, outpoint) :: store.expirationQueue }

/-- Add a deposit to the checkpoint under construction, and its amount without
the fee to the pending transfers. -/
def creditDeposit (store : Store) (input : Input) (feeRate : Nat) (dest : Dest)
    (deque : DequeSet := .element) : ContractResult Store := do
  let inputSize ← input.estVsize
  let mintAmount ← Outcome.checkedMul 64 input.amount store.bitcoinConfig.unitsPerSat
  let denom := getFullBtcDenom store.config.tokenFactoryAddr
  let feeAmount ← store.calcMinimumDepositFees inputSize feeRate
  let fee ← Outcome.checkedAdd 64 feeAmount (calcDepositFee mintAmount)
  Outcome.require (fee ≤ mintAmount)
    (.app "Deposit amount is too small to pay its spending fee")
  let store ← store.giveMinerFee fee deque
  let building ← store.queue.building
  let checkpointTx ← building.firstTx
  let building := building.setFirstTx { checkpointTx with input := checkpointTx.input ++ [input] }
  let queue ← store.queue.set store.queue.buildingIndex
    (building.insertPending dest { denom, amount := mintAmount - fee }) deque
  return { store with queue }

/-- Verify and process a deposit of Bitcoin into the reserve. -/
def relayDeposit (host : Host) (env : Env) (store : Store) (btcTx : Transaction) (btcHeight : Nat)
    (btcProof : PartialMerkleTree) (btcVout sigsetIndex : Nat) (dest : Dest)
    (deque : DequeSet := .element) : ContractResult Store := do
  let txid ← store.provenTxid host btcHeight btcProof store.bitcoinConfig.minConfirmations
  Outcome.require (txid = btcTx.txid host) (.app "Bitcoin merkle proof does not match transaction")
  let output ← Outcome.getOr (Outcome.fail (.app "Output index is out of bounds"))
    btcTx.output[btcVout]?
  let checkpoint ← store.queue.get sigsetIndex
  let sigset := checkpoint.sigset
  let destBytes := dest.commitmentBytes host
  let threshold := store.checkpointConfig.sigsetThreshold
  let expectedScript ← sigset.outputScript host destBytes threshold
  Outcome.require (output.scriptPubkey = expectedScript)
    (.app "Output script does not match signature set")
  let outpoint : OutPoint := ⟨btcTx.txid host, btcVout⟩
  Outcome.require (outpoint ∉ store.outpoints) (.app "Output has already been relayed")
  let depositTimeout ← Outcome.checkedAdd 64 sigset.createTime store.bitcoinConfig.maxDepositAge
  let store := store.insertOutpoint outpoint depositTimeout
  Outcome.require checkpoint.depositsEnabled
    (.app "Deposits are disabled for the given checkpoint")
  if depositTimeout < env.seconds then
    let building ← store.queue.building
    let recoveryTxs ← RecoveryTxs.createRecoveryTx host store.recoveryTxs {
      expiredTx := btcTx
      vout := btcVout
      oldSigset := sigset
      newSigset := building.sigset
      threshold
      feeRate := building.feeRate
      dest }
    return { store with recoveryTxs }
  let input ← Input.new host outpoint sigset destBytes output.value threshold
  store.creditDeposit input checkpoint.feeRate dest deque

/-- Record a proof that a checkpoint has been confirmed into a Bitcoin block. -/
def relayCheckpoint (host : Host) (store : Store) (btcHeight : Nat) (btcProof : PartialMerkleTree)
    (cpIndex : Nat) : ContractResult Store := do
  Outcome.require (∀ confIndex ∈ store.queue.confirmedIndex, confIndex < cpIndex)
    (.app "Checkpoint has already been relayed")
  let txid ← store.provenTxid host btcHeight btcProof
    store.bitcoinConfig.minCheckpointConfirmations
  let checkpoint ← store.queue.get cpIndex
  let btcTx ← checkpoint.checkpointTx host
  Outcome.require (txid = btcTx.txid host) (.app "Bitcoin merkle proof does not match transaction")
  return { store with queue := { store.queue with confirmedIndex := some cpIndex } }

/-- Add an output to the checkpoint under construction. -/
def addWithdrawal (host : Host) (store : Store) (scriptPubkey : Script) (amount : Nat)
    (deque : DequeSet := .element) : ContractResult Store := do
  let config := store.bitcoinConfig
  Outcome.require (scriptPubkey.length ≤ config.maxWithdrawalScriptLength)
    (.app "Script exceeds maximum length")
  Outcome.require (config.minWithdrawalCheckpoints ≤ store.queue.checkpoints.length)
    (.app ("Withdrawals are disabled until the network has produced at least " ++
      config.minWithdrawalCheckpoints.repr ++ " checkpoints"))
  let building ← store.queue.building
  let fee ← store.calcMinimumWithdrawalFees scriptPubkey.length building.feeRate
  Outcome.require (fee ≤ amount) (.app "Withdrawal is too small to pay its miner fee")
  let amount := amount - fee
  let store ← store.giveMinerFee fee deque
  let value ← Outcome.checkedDiv (asU64 amount) config.unitsPerSat
  Outcome.require (host.dustValue scriptPubkey < value)
    (.app "Withdrawal is too small to pay its dust limit")
  let checkpoint ← store.queue.building
  let checkpointTx ← checkpoint.firstTx
  let checkpoint := checkpoint.setFirstTx { checkpointTx with
    output := checkpointTx.output ++ [⟨value, scriptPubkey⟩] }
  let queue ← store.queue.set store.queue.buildingIndex checkpoint deque
  return { store with queue }

/-- The amount in the reserve output of the last completed checkpoint. -/
def valueLocked (host : Host) (store : Store) : ContractResult Nat := do
  let lastCompleted ← store.queue.lastCompleted
  let output ← lastCompleted.reserveOutput host
  let output ← Outcome.getOr Outcome.abort output
  return output.value

section OfflineSigners

variable (host : Host) (store : Store)

/-- None of the given checkpoints has all signatures of the key. -/
def isOffline (xpub : Xpub) : List Checkpoint → ContractResult Bool
  | [] => .ok true
  | checkpoint :: rest => do
      let missing ← checkpoint.toSign host xpub
      if missing = [] then return false else isOffline xpub rest

/-- The offline ones among validators, up to the first that is too weak to be
in the active signatory set. -/
def offlineAmong (completed : List Checkpoint) (lowestPower : Nat) :
    List Validator → ContractResult (List ConsensusKey)
  | [] => .ok []
  | validator :: rest =>
      if validator.power < lowestPower then .ok []
      else
        match store.sigKeys.load validator.pubkey with
        | none => offlineAmong completed lowestPower rest
        | some xpub => do
            let offline ← isOffline host xpub completed.reverse
            let others ← offlineAmong completed lowestPower rest
            return if offline then validator.pubkey :: others else others

/-- The signers that have not signed any of the last completed checkpoints. -/
def offlineSigners : ContractResult (List ConsensusKey) := do
  let validators := store.getValidators.insertionSort fun first second =>
    second.power ≤ first.power
  let offlineThreshold := store.bitcoinConfig.maxOfflineCheckpoints
  let building ← store.queue.building
  let lowest ← Outcome.getOr Outcome.abort building.sigset.signatories.getLast?
  let completed ← store.queue.completed offlineThreshold
  if completed.length < offlineThreshold then return []
  offlineAmong host store completed lowest.votingPower validators

end OfflineSigners

def hasCompletedCp (store : Store) : ContractResult Bool :=
  match store.queue.lastCompletedIndex with
  | .error (.error (.app error)) =>
      if ContractError.app error = QueueStore.noCompleted then .ok false
      else Outcome.fail (.app error)
  | .error .panic => Outcome.abort
  | _ => .ok true

/-- The reserve is too large to allow further deposits. -/
def reachedCapacityLimit (host : Host) (store : Store) (hasCompletedCp : Bool) :
    ContractResult Bool :=
  if hasCompletedCp then do
    let valueLocked ← store.valueLocked host
    return store.bitcoinConfig.capacityLimit ≤ valueLocked
  else .ok false

/-- Advance the checkpointing process once per block. -/
def beginBlockStep (host : Host) (env : Env) (store : Store) (timestampingCommitment : Bytes)
    (deque : DequeSet := .element) : ContractResult (Store × List ConsensusKey) := do
  let hasCompletedCp ← store.hasCompletedCp
  let reachedCapacityLimit ← store.reachedCapacityLimit host hasCompletedCp
  let btcHeight := HeaderQueue.height store.headers
  let (store, pushed) ← store.maybeStep host env btcHeight (!reachedCapacityLimit)
    timestampingCommitment store.bitcoinConfig deque
  if pushed then
    let offline ← store.offlineSigners host
    return (store, offline)
  else return (store, [])

/-- An extended public key without its place in a tree. -/
def normalizedXpub (xpub : Xpub) : Xpub :=
  { xpub with
    childNumber := 0
    depth := 0
    parentFingerprint := [0, 0, 0, 0] }

/-- Save the key of a signatory, unless it is in use. -/
def insertSignatoryKey (store : Store) (consensusKey : ConsensusKey) (xpub : Xpub) :
    ContractResult Store := do
  let xpubKey := (normalizedXpub xpub).encode
  Outcome.require (xpubKey ∉ store.xpubs) (.app "Duplicate signatory key")
  return { store with
    sigKeys := store.sigKeys.save consensusKey xpub
    xpubs := xpubKey :: store.xpubs }

def setSignatoryKey (host : Host) (store : Store) (signer : Addr) (signatoryKey : Xpub) :
    ContractResult Store := do
  let consensusKey ← Outcome.getOr
    (Outcome.fail (.app "Signer does not have a consensus key")) (store.signers.load signer)
  Outcome.require (signatoryKey.network = host.network)
    (.app "Signatory key network does not match network")
  store.insertSignatoryKey consensusKey signatoryKey

/-- Remove the key of a signatory, if there is one. -/
def removeSignatoryKey (store : Store) (consKey : ConsensusKey) : Store :=
  match store.sigKeys.load consKey with
  | none => store
  | some xpub => { store with
      xpubs := store.xpubs.filter fun encoded => encoded ≠ xpub.encode
      sigKeys := store.sigKeys.remove consKey }

def punishValidator (store : Store) (consKey : ConsensusKey) (addr : Addr) : Store :=
  let store := { store with
    validators := store.validators.remove consKey
    signers := store.signers.remove addr }
  store.removeSignatoryKey consKey

end Store

end CwBitcoin
