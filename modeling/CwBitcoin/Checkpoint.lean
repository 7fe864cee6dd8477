import CwBitcoin.ThresholdSig

/-!
# Checkpoints

A checkpoint moves the funds held in reserve.  While it is `building` it takes
in deposits and withdrawals, `advance` freezes its transaction, and signatures
make it `complete`.
-/

namespace CwBitcoin

inductive CheckpointStatus where
  | building
  | signing
  | complete
  deriving DecidableEq, Repr

/-- An input of a checkpoint transaction, possibly unsigned. -/
structure Input where
  prevout : OutPoint
  scriptPubkey : Script
  redeemScript : Script
  sigsetIndex : Nat
  dest : Bytes
  amount : Nat
  estWitnessVsize : Nat
  signatures : ThresholdSig
  deriving DecidableEq, Repr

namespace Input

def toTxin (host : Host) (input : Input) : ContractResult TxIn := do
  let witness ← input.signatures.toWitness host
  let witness := if input.signatures.signed then witness ++ [input.redeemScript] else witness
  return { previousOutput := input.prevout, scriptSig := [], sequence := 2 ^ 32 - 1, witness }

/-- An unsigned input that spends an output of the given signatory set. -/
def new (host : Host) (prevout : OutPoint) (sigset : SignatorySet) (dest : Bytes) (amount : Nat)
    (threshold : Nat × Nat) : ContractResult Input := do
  let scriptPubkey ← sigset.outputScript host dest threshold
  let redeemScript ← sigset.redeemScript dest threshold
  let signatures ← ThresholdSig.fromSigset sigset
  return {
    prevout, scriptPubkey, redeemScript, dest, amount, signatures
    sigsetIndex := sigset.index
    estWitnessVsize := sigset.estWitnessVsize }

def estVsize (input : Input) : ContractResult Nat :=
  Outcome.checkedAdd 64 input.estWitnessVsize 40

end Input

/-- A Bitcoin transaction with the signing state of its inputs. -/
structure BitcoinTx where
  lockTime : Nat
  /-- How many inputs are fully signed. -/
  signedInputs : Nat
  input : List Input
  output : List TxOut
  deriving DecidableEq, Repr

namespace BitcoinTx

def default : BitcoinTx := { lockTime := 0, signedInputs := 0, input := [], output := [] }

def toBitcoinTx (host : Host) (tx : BitcoinTx) : ContractResult Transaction := do
  let input ← tx.input.mapM (Input.toTxin host)
  return { version := 1, lockTime := tx.lockTime, input, output := tx.output }

def signed (tx : BitcoinTx) : Bool := tx.signedInputs = tx.input.length

/-- The size estimate of inputs that are fully signed. -/
def witnessVsize (start : Nat) (inputs : List Input) : ContractResult Nat :=
  Outcome.checkedSum 64 start (inputs.map Input.estWitnessVsize)

def estVsize (host : Host) (tx : BitcoinTx) : ContractResult Nat := do
  let bitcoinTx ← tx.toBitcoinTx host
  let witnesses ← witnessVsize 0 tx.input
  Outcome.checkedAdd 64 (host.vsize bitcoinTx) witnesses

def txid (host : Host) (tx : BitcoinTx) : ContractResult Bytes := do
  let bitcoinTx ← tx.toBitcoinTx host
  return bitcoinTx.txid host

/-- Set the message of an input to its signature hash. -/
def signatureMessage (host : Host) (bitcoinTx : Transaction) (index : Nat) (input : Input) : Input :=
  { input with
    signatures := input.signatures.setMessage
      (host.segwitSignatureHash bitcoinTx.stripWitness index input.redeemScript input.amount) }

def populateInputSigMessage (host : Host) (tx : BitcoinTx) (inputIndex : Nat) :
    ContractResult BitcoinTx := do
  let bitcoinTx ← tx.toBitcoinTx host
  let input ← Outcome.getOr (Outcome.fail (.inputIndexOutOfBounds inputIndex)) tx.input[inputIndex]?
  return { tx with input := tx.input.set inputIndex (signatureMessage host bitcoinTx inputIndex input) }

/-- Count one more when something became fully signed. -/
def countSigned (wasSigned isSigned : Bool) (count : Nat) : ContractResult Nat :=
  if wasSigned = false ∧ isSigned then Outcome.checkedAdd 16 count 1 else .ok count

section Sign

variable (host : Host) (xpub : Xpub) (missing : ContractError)

/-- Apply signatures to the inputs that need one from the signatory, in order,
and fail with `missing` when there are too few.  The signatures that are left
over and the number of fully signed inputs are passed on. -/
def signInputs : List Input → List Signature → Nat →
    ContractResult (List Input × List Signature × Nat)
  | [], sigs, signedInputs => .ok ([], sigs, signedInputs)
  | input :: rest, sigs, signedInputs => do
      let pubkey ← xpub.derivePubkey host input.sigsetIndex
      if input.signatures.needsSig pubkey then
        match sigs with
        | [] => Outcome.fail missing
        | sig :: sigs => do
            let signatures ← input.signatures.sign host pubkey sig
            let signedInputs ← countSigned input.signatures.signed signatures.signed signedInputs
            let (rest, sigs, signedInputs) ← signInputs rest sigs signedInputs
            return ({ input with signatures } :: rest, sigs, signedInputs)
      else do
        let (rest, sigs, signedInputs) ← signInputs rest sigs signedInputs
        return (input :: rest, sigs, signedInputs)

def sign (tx : BitcoinTx) (sigs : List Signature) : ContractResult (BitcoinTx × List Signature) := do
  let (input, sigs, signedInputs) ← signInputs host xpub missing tx.input sigs tx.signedInputs
  return ({ tx with input, signedInputs }, sigs)

end Sign

/-- Remove the outputs that cannot pay an equal share of the fee until all
remaining ones can.  Every round but the last removes an output, so the number
of outputs bounds the number of rounds. -/
def deductLoop (host : Host) (fee : Nat) :
    (rounds : Nat) → List TxOut → ContractResult (List TxOut × Nat)
  | 0, _ => Outcome.abort
  | rounds + 1, output => do
      let threshold ← Outcome.checkedDiv fee output.length
      let adjusted (out : TxOut) := out.value - host.dustValue out.scriptPubkey
      let minOutput := (output.map adjusted).foldl min (2 ^ 64 - 1)
      let remaining := output.filter fun out => threshold < adjusted out
      if remaining.length = 0 then return (remaining, threshold)
      let threshold := fee / remaining.length
      if threshold ≤ minOutput then return (remaining, threshold)
      else deductLoop host fee rounds remaining

/-- Deduct a fee evenly from all outputs. -/
def deductFee (host : Host) (tx : BitcoinTx) (fee : Nat) : ContractResult BitcoinTx := do
  if fee = 0 then return tx
  Outcome.require (tx.output ≠ []) (.bitcoinFee fee)
  let (remaining, threshold) ← deductLoop host fee (tx.output.length + 1) tx.output
  let output ← remaining.mapM fun out => do
    let value ← Outcome.checkedSub out.value threshold
    return { out with value }
  return { tx with output }

end BitcoinTx

/-- Transactions that are signed together. -/
structure Batch where
  signedTxs : Nat
  batch : List BitcoinTx
  deriving DecidableEq, Repr

def Batch.signed (batch : Batch) : Bool := batch.signedTxs = batch.batch.length

structure Checkpoint where
  status : CheckpointStatus
  /-- Transfers to be paid out once the checkpoint is fully signed. -/
  pending : List (Dest × Coin)
  batches : List Batch
  feeRate : Nat
  signedAtBtcHeight : Option Nat
  depositsEnabled : Bool
  feesCollected : Nat
  sigset : SignatorySet
  deriving DecidableEq, Repr

namespace Checkpoint

/-- A checkpoint under construction, with one empty transaction. -/
def new (sigset : SignatorySet) : Checkpoint where
  status := .building
  pending := []
  batches := [{ signedTxs := 0, batch := [BitcoinTx.default] }]
  feeRate := DEFAULT_FEE_RATE
  signedAtBtcHeight := none
  depositsEnabled := true
  feesCollected := 0
  sigset := sigset

def createTime (checkpoint : Checkpoint) : Nat := checkpoint.sigset.createTime

/-- The first transaction of the checkpoint batch. -/
def firstTx (checkpoint : Checkpoint) : ContractResult BitcoinTx := do
  let batch ← Outcome.getOr Outcome.abort checkpoint.batches.head?
  Outcome.getOr Outcome.abort batch.batch.head?

/-- Replace the first transaction of the checkpoint batch. -/
def setFirstTx (checkpoint : Checkpoint) (tx : BitcoinTx) : Checkpoint :=
  { checkpoint with
    batches := checkpoint.batches.modifyHead fun batch =>
      { batch with batch := batch.batch.modifyHead fun _ => tx } }

/-- Record a transfer to be paid out once the checkpoint is fully signed. -/
def insertPending (checkpoint : Checkpoint) (dest : Dest) (coin : Coin) : Checkpoint :=
  { checkpoint with pending := checkpoint.pending ++ [(dest, coin)] }

/-- The last transaction of the checkpoint batch. -/
def checkpointTx (host : Host) (checkpoint : Checkpoint) : ContractResult Transaction := do
  let batch ← Outcome.getOr Outcome.abort checkpoint.batches.head?
  let tx ← Outcome.getOr Outcome.abort batch.batch.getLast?
  tx.toBitcoinTx host

def reserveOutput (host : Host) (checkpoint : Checkpoint) : ContractResult (Option TxOut) := do
  let tx ← checkpoint.checkpointTx host
  return tx.output.head?

def signedBatches (checkpoint : Checkpoint) : Nat :=
  (checkpoint.batches.takeWhile Batch.signed).length

/-- All batches are fully signed. -/
def signed (checkpoint : Checkpoint) : Bool :=
  checkpoint.signedBatches = checkpoint.batches.length

section Sign

variable (host : Host) (xpub : Xpub)

/-- Sign the transactions of a batch and count those that become signed. -/
def signTxs : List BitcoinTx → List Signature → Nat →
    ContractResult (List BitcoinTx × List Signature × Nat)
  | [], sigs, signedTxs => .ok ([], sigs, signedTxs)
  | tx :: rest, sigs, signedTxs => do
      let (signedTx, sigs) ←
        tx.sign host xpub (.checkpoint "Not enough signatures supplied") sigs
      let signedTxs ← BitcoinTx.countSigned tx.signed signedTx.signed signedTxs
      let (rest, sigs, signedTxs) ← signTxs rest sigs signedTxs
      return (signedTx :: rest, sigs, signedTxs)

/-- Sign the batches up to the first one that is not fully signed. -/
def signBatches : List Batch → List Signature → ContractResult (List Batch × List Signature)
  | [], sigs => .ok ([], sigs)
  | batch :: rest, sigs => do
      let (txs, sigs, signedTxs) ← signTxs host xpub batch.batch sigs batch.signedTxs
      let signedBatch : Batch := { signedTxs, batch := txs }
      if batch.signed then
        let (rest, sigs) ← signBatches rest sigs
        return (signedBatch :: rest, sigs)
      else return (signedBatch :: rest, sigs)

/-- Apply the signatures of one signatory, of which none may be missing or
left over. -/
def sign (checkpoint : Checkpoint) (sigs : List Signature) (btcHeight : Nat) :
    ContractResult Checkpoint := do
  let (batches, remaining) ← signBatches host xpub checkpoint.batches sigs
  Outcome.require (remaining = []) (.checkpoint "Excess signatures supplied")
  let signedCheckpoint := { checkpoint with batches }
  if signedCheckpoint.signed ∧ checkpoint.signed = false then
    return { signedCheckpoint with signedAtBtcHeight := some btcHeight }
  else return signedCheckpoint

/-- The messages and signatory sets of a transaction for which a signature of
the signatory is missing. -/
def toSignTx (tx : BitcoinTx) : ContractResult (List (Bytes × Nat)) := do
  let wanted ← tx.input.mapM fun input => do
    let pubkey ← xpub.derivePubkey host input.sigsetIndex
    return if input.signatures.needsSig pubkey then
      [(input.signatures.message, input.sigsetIndex)] else []
  return wanted.flatten

def toSignBatches : List Batch → ContractResult (List (Bytes × Nat))
  | [] => .ok []
  | batch :: rest => do
      let wanted ← batch.batch.mapM (toSignTx host xpub)
      if batch.signed then
        let others ← toSignBatches rest
        return wanted.flatten ++ others
      else return wanted.flatten

def toSign (checkpoint : Checkpoint) : ContractResult (List (Bytes × Nat)) :=
  toSignBatches host xpub checkpoint.batches

end Sign

/-- A 64-bit limit as an index type of the 32-bit target. -/
def asUsize (limit : Nat) : Nat := limit % 2 ^ 32

/-- The miner fees that the checkpoint transaction pays. -/
def checkpointTxMinerFees (checkpoint : Checkpoint) : ContractResult Nat := do
  let tx ← checkpoint.firstTx
  let fees ← Outcome.checkedSum 64 0 (tx.input.map Input.amount)
  (tx.output.map TxOut.value).foldlM Outcome.checkedSub fees

/-- The reserve output, whose value is still open, and the output with the
timestamping commitment. -/
def additionalOutputs (host : Host) (checkpoint : Checkpoint) (config : CheckpointConfig)
    (timestampingCommitment : Bytes) : ContractResult (List TxOut) := do
  let reserveScript ← checkpoint.sigset.outputScript host [0] config.sigsetThreshold
  let commitmentScript ← newOpReturn timestampingCommitment
  return [⟨0, reserveScript⟩, ⟨0, commitmentScript⟩]

def estVsize (host : Host) (checkpoint : Checkpoint) (config : CheckpointConfig)
    (timestampingCommitment : Bytes) : ContractResult Nat := do
  let checkpointTx ← checkpoint.firstTx
  let tx ← checkpointTx.toBitcoinTx host
  let additional ← checkpoint.additionalOutputs host config timestampingCommitment
  let tx := { tx with
    output := (additional ++ tx.output).take (asUsize config.maxOutputs)
    input := tx.input.take (asUsize config.maxInputs) }
  let witnesses ← BitcoinTx.witnessVsize 0 (checkpointTx.input.take (asUsize config.maxInputs))
  Outcome.checkedAdd 64 (host.vsize tx) witnesses

def baseFee (host : Host) (checkpoint : Checkpoint) (config : CheckpointConfig)
    (timestampingCommitment : Bytes) : ContractResult Nat := do
  let vsize ← checkpoint.estVsize host config timestampingCommitment
  Outcome.checkedMul 64 vsize checkpoint.feeRate

/-- The amounts of the inputs and outputs that fit into the transaction. -/
def calcTotalInputAndOutput (checkpoint : Checkpoint) (config : CheckpointConfig) :
    ContractResult (Nat × Nat) := do
  let batch ← Outcome.getOr (Outcome.fail (.checkpoint "Cannot get batch checkpoint"))
    checkpoint.batches.head?
  let tx ← Outcome.getOr (Outcome.fail (.checkpoint "Cannot get checkpoint tx")) batch.batch.head?
  let inAmount ← Outcome.checkedSum 64 0
    ((tx.input.take (asUsize config.maxInputs)).map Input.amount)
  let outAmount ← Outcome.checkedSum 64 0
    ((tx.output.take (asUsize config.maxOutputs)).map TxOut.value)
  return (inAmount, outAmount)

/-- What `advance` hands over to the next checkpoint. -/
structure Advanced where
  reserveOutpoint : OutPoint
  reserveValue : Nat
  feesPaid : Nat
  excessInputs : List Input
  excessOutputs : List TxOut
  deriving DecidableEq, Repr

/-- The frozen form of a checkpoint transaction: the additional outputs come
first, and what exceeds the limits is cut off at the back. -/
def freezeTx (host : Host) (config : CheckpointConfig) (cpFees : Nat) (outs : List TxOut)
    (tx : BitcoinTx) : ContractResult (BitcoinTx × Nat) := do
  let input := tx.input.take config.maxInputs
  let output := (outs ++ tx.output).take config.maxOutputs
  let inAmount ← Outcome.checkedSum 64 0 (input.map Input.amount)
  let outAmount ← Outcome.checkedSum 64 0 (output.map TxOut.value)
  let spent ← Outcome.checkedAdd 64 outAmount cpFees
  Outcome.require (spent ≤ inAmount)
    (.checkpoint "Insufficient reserve value to cover miner fees")
  let reserveValue := inAmount - spent
  Outcome.assert (output ≠ [])
  let output := output.modifyHead fun reserveOut => { reserveOut with value := reserveValue }
  let frozen := { tx with input, output }
  let bitcoinTx ← frozen.toBitcoinTx host
  return ({ frozen with input := input.mapIdx (BitcoinTx.signatureMessage host bitcoinTx) },
    reserveValue)

/-- Freeze the transaction and prepare its inputs to be signed.  The excess is
returned in the order in which it is popped from the back. -/
def advance (host : Host) (checkpoint : Checkpoint) (timestampingCommitment : Bytes)
    (cpFees : Nat) (config : CheckpointConfig) : ContractResult (Checkpoint × Advanced) := do
  let outs ← checkpoint.additionalOutputs host config timestampingCommitment
  let tx ← checkpoint.firstTx
  let (frozen, reserveValue) ← freezeTx host config cpFees outs tx
  let txid ← frozen.txid host
  return ({ checkpoint.setFirstTx frozen with status := .signing },
    { reserveOutpoint := ⟨txid, 0⟩
      reserveValue
      feesPaid := cpFees
      excessInputs := (tx.input.drop config.maxInputs).reverse
      excessOutputs := ((outs ++ tx.output).drop config.maxOutputs).reverse })

end Checkpoint

end CwBitcoin
