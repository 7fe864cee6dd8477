import CwBitcoin.State

/-!
# The checkpoint queue

A sequential chain of checkpoints.  The last one is being built, the one
before it may be waiting for signatures, and all others are complete.
-/

namespace CwBitcoin

/-- The place in the deque of the checkpoint with the given index, after old
ones have been pruned. -/
def getDequeIndex (buildingIndex queueLen index : Nat) : ContractResult Nat := do
  let next ← Outcome.checkedAdd 32 buildingIndex 1
  let start ← Outcome.checkedSub next queueLen
  if buildingIndex < index ∨ index < start then Outcome.fail (.app "Index out of bounds")
  else return index - start

/-- Which element `DequeExtension::set` writes. -/
inductive DequeSet where
  /-- The one under the raw key of the position, whatever the head is: the source. -/
  | rawKey
  /-- The one that `get` reads at the position: the comment in the source. -/
  | element
  deriving DecidableEq, Repr

/-- The elements of a deque after a write to a position in range.  The cells below the
head were emptied by pops, and nothing reads what is written there. -/
def DequeSet.write {α : Type} (items : List α) (head position : Nat) (value : α) :
    DequeSet → List α
  | .rawKey => if position < head then items else items.set (position - head) value
  | .element => items.set position value

namespace QueueStore

def get (queue : QueueStore) (index : Nat) : ContractResult Checkpoint := do
  let position ← getDequeIndex queue.buildingIndex queue.checkpoints.length index
  Outcome.getOr Outcome.abort queue.checkpoints[position]?

/-- The source writes raw keys.  What is said of the other write holds of the source as
long as no checkpoint has been pruned. -/
def set (queue : QueueStore) (index : Nat) (checkpoint : Checkpoint)
    (deque : DequeSet := .element) : ContractResult QueueStore := do
  let position ← getDequeIndex queue.buildingIndex queue.checkpoints.length index
  return { queue with checkpoints := deque.write queue.checkpoints queue.head position checkpoint }

/-- The checkpoint that waits for signatures, if there is one. -/
def signing (queue : QueueStore) : ContractResult (Option Checkpoint) := do
  if queue.checkpoints.length < 2 then return none
  let index ← Outcome.checkedSub queue.buildingIndex 1
  let second ← queue.get index
  return if second.status = .signing then some second else none

def building (queue : QueueStore) : ContractResult Checkpoint := queue.get queue.buildingIndex

def noCompleted : ContractError := .app "No completed checkpoints yet"

def lastCompletedIndex (queue : QueueStore) : ContractResult Nat := do
  let signing ← queue.signing
  let offset := if signing.isSome then 2 else 1
  Outcome.require (offset ≤ queue.buildingIndex) noCompleted
  return queue.buildingIndex - offset

def lastCompleted (queue : QueueStore) : ContractResult Checkpoint := do
  let index ← queue.lastCompletedIndex
  queue.get index

/-- The latest completed checkpoints, at most `limit` of them. -/
def completed (queue : QueueStore) (limit : Nat) : ContractResult (List Checkpoint) := do
  let length := queue.checkpoints.length
  if length = 0 then return []
  let signing ← queue.signing
  let skip := if signing.isSome then 2 else 1
  let endIndex := queue.buildingIndex - (skip - 1)
  let available ← Outcome.checkedSub length skip
  let start ← Outcome.checkedSub endIndex (min limit available)
  (List.range' start (endIndex - start)).mapM queue.get

/-- How many completed checkpoints are not yet confirmed. -/
def numUnconfirmed (queue : QueueStore) : ContractResult Nat := do
  let signing ← queue.signing
  let signingOffset := if signing.isSome then 1 else 0
  if queue.buildingIndex < 1 + signingOffset then return 0
  let lastCompletedIndex := queue.buildingIndex - (1 + signingOffset)
  match queue.confirmedIndex with
  | none => do
      let length ← Outcome.checkedSub queue.checkpoints.length 1
      Outcome.checkedSub length signingOffset
  | some confirmedIndex => Outcome.checkedSub lastCompletedIndex confirmedIndex

def firstUnconfirmedIndex (queue : QueueStore) : ContractResult (Option Nat) := do
  let numUnconf ← queue.numUnconfirmed
  if numUnconf = 0 then return none
  let signing ← queue.signing
  let signingOffset := if signing.isSome then 1 else 0
  let index ← Outcome.checkedSub queue.buildingIndex numUnconf
  let index ← Outcome.checkedSub index signingOffset
  return some index

/-- Read checkpoints at consecutive indexes up to the first incomplete one. -/
def completeFrom (queue : QueueStore) : List Nat → ContractResult (List (Nat × Checkpoint))
  | [] => .ok []
  | index :: rest => do
      let checkpoint ← queue.get index
      if checkpoint.status = .complete then
        let others ← completeFrom queue rest
        return (index, checkpoint) :: others
      else return []

def unconfirmed (queue : QueueStore) : ContractResult (List Checkpoint) := do
  match ← queue.firstUnconfirmedIndex with
  | none => return []
  | some index => do
      let found ← queue.completeFrom (List.range' index (queue.buildingIndex + 1 - index))
      return found.map Prod.snd

/-- The confirmed checkpoints that have not been handled. -/
def unhandledConfirmed (queue : QueueStore) : ContractResult (List Nat) := do
  match queue.confirmedIndex with
  | none => return []
  | some confirmedIndex => do
      let first := queue.firstUnhandledConfirmedIndex
      let found ← queue.completeFrom (List.range' first (confirmedIndex + 1 - first))
      return found.map Prod.fst

def unconfirmedFeesPaid (queue : QueueStore) : ContractResult Nat := do
  let unconfirmed ← queue.unconfirmed
  unconfirmed.foldlM (fun fees checkpoint => do
    let fee ← checkpoint.checkpointTxMinerFees
    Outcome.checkedAdd 64 fees fee) 0

def unconfirmedVbytes (host : Host) (queue : QueueStore) (config : CheckpointConfig) :
    ContractResult Nat := do
  let unconfirmed ← queue.unconfirmed
  unconfirmed.foldlM (fun sum checkpoint => do
    let vbytes ← checkpoint.estVsize host config (List.replicate 32 0)
    Outcome.checkedAdd 64 sum vbytes) 0

def feeAdjustment (host : Host) (queue : QueueStore) (feeRate : Nat) (config : CheckpointConfig) :
    ContractResult Nat := do
  let unconfFeesPaid ← queue.unconfirmedFeesPaid
  let unconfVbytes ← queue.unconfirmedVbytes host config
  let wanted ← Outcome.checkedMul 64 unconfVbytes feeRate
  return wanted - unconfFeesPaid

/-- The miner fee of a checkpoint, including what the unconfirmed ones before
it paid too little. -/
def calcFeeCheckpoint (host : Host) (queue : QueueStore) (config : CheckpointConfig)
    (cpIndex : Nat) (timestampingCommitment : Bytes) : ContractResult Nat := do
  let checkpoint ← queue.get cpIndex
  let additionalFees ← queue.feeAdjustment host checkpoint.feeRate config
  let baseFee ← checkpoint.baseFee host config timestampingCommitment
  Outcome.checkedAdd 64 baseFee additionalFees

/-- Drop old checkpoints from the front, as long as more than ten remain. -/
def pruneCheckpoints (latest maxAge : Nat) : List Checkpoint → ContractResult (List Checkpoint)
  | [] => .ok []
  | oldest :: rest =>
      if rest.length + 1 ≤ 10 then .ok (oldest :: rest)
      else do
        let age ← Outcome.checkedSub latest oldest.createTime
        if age ≤ maxAge then return oldest :: rest else pruneCheckpoints latest maxAge rest

def prune (queue : QueueStore) (config : CheckpointConfig) : ContractResult QueueStore := do
  let building ← queue.building
  let checkpoints ← pruneCheckpoints building.createTime config.maxAge queue.checkpoints
  return { queue with
    checkpoints
    head := queue.head + (queue.checkpoints.length - checkpoints.length) }

/-- Apply the signatures of one signatory to a frozen checkpoint, which
completes it when enough have signed. -/
def sign (host : Host) (queue : QueueStore) (xpub : Xpub) (sigs : List Signature)
    (index btcHeight : Nat) (deque : DequeSet := .element) : ContractResult QueueStore := do
  let checkpoint ← queue.get index
  Outcome.require (checkpoint.status ≠ .building) (.checkpoint "Checkpoint is still building")
  let signed ← checkpoint.sign host xpub sigs btcHeight
  let signed :=
    if checkpoint.status = .signing ∧ signed.signed then { signed with status := .complete }
    else signed
  queue.set index signed deque

end QueueStore

/-- The next fee rate, a quarter up or down within the configured bounds. -/
def adjustFeeRate (prevFeeRate : Nat) (up : Bool) (config : CheckpointConfig) :
    ContractResult Nat := do
  let adjusted ←
    if up then do
      let scaled ← Outcome.checkedMul 64 prevFeeRate 5
      let next ← Outcome.checkedAdd 64 prevFeeRate 1
      pure (max (scaled / 4) next)
    else do
      let scaled ← Outcome.checkedMul 64 prevFeeRate 3
      let next ← Outcome.checkedSub prevFeeRate 1
      pure (min (scaled / 4) next)
  Outcome.assert (config.minFeeRate ≤ config.maxFeeRate)
  return min (max adjusted config.minFeeRate) config.maxFeeRate

namespace Store

variable (host : Host) (env : Env) (store : Store)

/-- The conditions on an existing checkpoint under which a new one is pushed:
enough time, an up-to-date header queue, something to do, fees for the miners,
and enough reserve. -/
def buildingReady (timestampingCommitment : Bytes) (btcHeight : Nat) : ContractResult Bool := do
  let queue := store.queue
  let config := store.checkpointConfig
  let building ← queue.building
  let elapsed ← Outcome.checkedSub env.seconds building.createTime
  if elapsed < config.minCheckpointInterval then return false
  let behind ← match queue.lastCompletedIndex with
    | .ok lastCompletedIndex => do
        let lastCompleted ← queue.get lastCompletedIndex
        pure (decide (btcHeight < lastCompleted.signedAtBtcHeight.getD 0))
    | .error (.error _) => pure false
    | .error .panic => Outcome.abort
  if behind then return false
  let cpMinerFees ← queue.calcFeeCheckpoint host config queue.buildingIndex timestampingCommitment
  let idle ←
    if elapsed < config.maxCheckpointInterval ∨ queue.buildingIndex = 0 then do
      let tx ← building.checkpointTx host
      let hasPendingDeposit :=
        if queue.buildingIndex = 0 then tx.input ≠ [] else 1 < tx.input.length
      let hasPendingWithdrawal := tx.output ≠ []
      let hasPendingTransfers := building.pending ≠ []
      pure (decide ((¬ hasPendingDeposit ∧ ¬ hasPendingWithdrawal ∧ ¬ hasPendingTransfers) ∨
        building.feesCollected < cpMinerFees))
    else pure false
  if idle then return false
  let (inputAmount, outputAmount) ← building.calcTotalInputAndOutput config
  let spent ← Outcome.checkedAdd 64 outputAmount cpMinerFees
  return spent ≤ inputAmount

/-- The index of the checkpoint that would be pushed. -/
def nextIndex : ContractResult Nat :=
  if store.queue.checkpoints = [] then .ok store.queue.buildingIndex
  else Outcome.checkedAdd 32 store.queue.buildingIndex 1

/-- Whether the signatory set may secure a checkpoint. -/
def usable (sigset : SignatorySet) : Bool := sigset.possibleVp ≠ 0 ∧ sigset.hasQuorum

def shouldPush (timestampingCommitment : Bytes) (btcHeight : Nat) : ContractResult Bool := do
  let signing ← store.queue.signing
  if signing.isSome then return false
  let ready ←
    if store.queue.checkpoints = [] then pure true
    else store.buildingReady host env timestampingCommitment btcHeight
  if ready = false then return false
  let unconfs ← store.queue.numUnconfirmed
  if store.checkpointConfig.maxUnconfirmedCheckpoints ≤ unconfs then return false
  let index ← store.nextIndex
  let sigset ← store.signatorySet host env.seconds index
  return usable sigset

/-- Push a checkpoint under construction.  The index is saved before the
signatory set is checked again. -/
def maybePush (depositsEnabled : Bool) (deque : DequeSet := .element) :
    ContractResult (Store × Option Checkpoint) := do
  let index ← store.nextIndex
  let store := { store with queue := { store.queue with buildingIndex := index } }
  let sigset ← store.signatorySet host env.seconds index
  if usable sigset = false then return (store, none)
  let queue := { store.queue with
    checkpoints := store.queue.checkpoints ++ [Checkpoint.new sigset] }
  let building ← queue.building
  let building := { building with depositsEnabled }
  let queue ← queue.set index building deque
  return ({ store with queue }, some building)

/-- The fee rate of a new checkpoint, adjusted to how fast the ones before it
were confirmed. -/
def nextFeeRate (queue : QueueStore) (config : CheckpointConfig) (prevFeeRate btcHeight : Nat) :
    ContractResult Nat := do
  match ← queue.firstUnconfirmedIndex with
  | some firstUnconfIndex => do
      let firstUnconf ← queue.get firstUnconfIndex
      let btcBlocksSinceFirst ←
        Outcome.checkedSub btcHeight (firstUnconf.signedAtBtcHeight.getD 0)
      let lastUnconfIndex ← queue.lastCompletedIndex
      let lastUnconf ← queue.get lastUnconfIndex
      let btcBlocksSinceLast ← Outcome.checkedSub btcHeight (lastUnconf.signedAtBtcHeight.getD 0)
      if config.targetCheckpointInclusion ≤ btcBlocksSinceFirst ∧ 0 < btcBlocksSinceLast then
        adjustFeeRate prevFeeRate true config
      else return prevFeeRate
  | none =>
      match queue.lastCompletedIndex with
      | .ok _ => adjustFeeRate prevFeeRate false config
      | .error (.error _) => return prevFeeRate
      | .error .panic => Outcome.abort

/-- Put the reserve input and the excess of the previous checkpoint into a new
one. -/
def fillBuilding (config : CheckpointConfig) (sigset : SignatorySet)
    (advanced : Checkpoint.Advanced) (building : Checkpoint) : ContractResult Checkpoint := do
  let tx ← building.firstTx
  let input ← Input.new host advanced.reserveOutpoint sigset [0] advanced.reserveValue
    config.sigsetThreshold
  let excessInputs ← advanced.excessInputs.mapM fun input => do
    let signatures ← ThresholdSig.fromShares input.signatures.shares
    return { input with signatures }
  return building.setFirstTx { tx with
    input := tx.input ++ input :: excessInputs
    output := tx.output ++ advanced.excessOutputs }

/-- Advance the state machine of the queue: push a new checkpoint, prune, and
freeze the one that was being built. -/
def maybeStep (btcHeight : Nat) (shouldAllowDeposits : Bool) (timestampingCommitment : Bytes)
    (parentConfig : BitcoinConfig) (deque : DequeSet := .element) :
    ContractResult (Store × Bool) := do
  let shouldPush ← store.shouldPush host env timestampingCommitment btcHeight
  if shouldPush = false then return (store, false)
  let (store, pushed) ← store.maybePush host env shouldAllowDeposits deque
  if pushed.isNone then return (store, false)
  let config := store.checkpointConfig
  let queue ← store.queue.prune config
  if queue.buildingIndex = 0 then return ({ store with queue }, true)
  let prevIndex := queue.buildingIndex - 1
  let cpFees ← queue.calcFeeCheckpoint host config prevIndex timestampingCommitment
  let prev ← queue.get prevIndex
  let (frozen, advanced) ← prev.advance host timestampingCommitment cpFees config
  let queue ← queue.set prevIndex frozen deque
  let feeUnits ← Outcome.checkedMul 64 advanced.feesPaid parentConfig.unitsPerSat
  let feePool ← checkedI64 (store.feePool - asI64 feeUnits)
  let feeRate ← nextFeeRate queue config prev.feeRate btcHeight
  let building ← queue.building
  let building ← fillBuilding host config prev.sigset advanced { building with feeRate }
  let queue ← queue.set queue.buildingIndex building deque
  return ({ store with queue, feePool }, true)

end Store

end CwBitcoin
