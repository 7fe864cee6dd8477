import CwBitcoin.State

/-!
# Recovery of expired deposits

A deposit that is relayed too late is not added to a checkpoint.  Instead a
transaction of its own pays it to the same destination under the current
signatory set.
-/

namespace CwBitcoin

structure RecoveryTxInput where
  expiredTx : Transaction
  vout : Nat
  oldSigset : SignatorySet
  newSigset : SignatorySet
  threshold : Nat × Nat
  feeRate : Nat
  dest : Dest

/-- A recovery transaction with the signatures that it needs. -/
structure SignedRecoveryTx where
  tx : Transaction
  sigsetIndex : Nat
  dest : Dest
  deriving DecidableEq, Repr

namespace RecoveryTxs

def createRecoveryTx (host : Host) (recoveryTxs : List RecoveryTx) (args : RecoveryTxInput) :
    ContractResult (List RecoveryTx) := do
  let expiredOutput ← Outcome.getOr (Outcome.fail (.signer "Invalid recovery tx vout"))
    args.expiredTx.output[args.vout]?
  let input ← Input.new host ⟨args.expiredTx.txid host, args.vout⟩ args.oldSigset
    (args.dest.commitmentBytes host) expiredOutput.value args.threshold
  let scriptPubkey ← args.newSigset.outputScript host (args.dest.commitmentBytes host)
    args.threshold
  let tx : BitcoinTx := { BitcoinTx.default with
    input := [input]
    output := [⟨expiredOutput.value, scriptPubkey⟩] }
  let vsize ← tx.estVsize host
  let fee ← Outcome.checkedMul 64 args.feeRate vsize
  let tx ← tx.deductFee host fee
  let tx ← tx.populateInputSigMessage host 0
  return recoveryTxs ++ [{
    tx
    oldSigsetIndex := args.oldSigset.index
    newSigsetIndex := args.newSigset.index
    dest := args.dest }]

/-- The messages and signatory sets for which a signature of the signatory is
missing. -/
def toSign (host : Host) (recoveryTxs : List RecoveryTx) (xpub : Xpub) :
    ContractResult (List (Bytes × Nat)) := do
  let wanted ← recoveryTxs.mapM fun recoveryTx => Checkpoint.toSignTx host xpub recoveryTx.tx
  return wanted.flatten

def notEnough : ContractError :=
  .signer "Not enough signatures supplied for recovery transaction"

/-- Sign the transactions in order, passing on the signatures that are left. -/
def signEach (host : Host) (xpub : Xpub) : List RecoveryTx → List Signature →
    ContractResult (List RecoveryTx × List Signature)
  | [], sigs => .ok ([], sigs)
  | recoveryTx :: rest, sigs => do
      let (tx, sigs) ← recoveryTx.tx.sign host xpub notEnough sigs
      let (rest, sigs) ← signEach host xpub rest sigs
      return ({ recoveryTx with tx } :: rest, sigs)

def sign (host : Host) (recoveryTxs : List RecoveryTx) (xpub : Xpub) (sigs : List Signature) :
    ContractResult (List RecoveryTx) := do
  Outcome.require (sigs ≠ []) (.signer "No signatures supplied for recovery transaction")
  let (signed, remaining) ← signEach host xpub recoveryTxs sigs
  Outcome.require (remaining = [])
    (.signer "Excess signatures supplied for recovery transaction")
  return signed

/-- The transactions that are fully signed. -/
def signed (host : Host) (recoveryTxs : List RecoveryTx) : ContractResult (List SignedRecoveryTx) :=
  (recoveryTxs.filter fun recoveryTx => recoveryTx.tx.signed).mapM fun recoveryTx => do
    let tx ← recoveryTx.tx.toBitcoinTx host
    return { tx, sigsetIndex := recoveryTx.newSigsetIndex, dest := recoveryTx.dest }

end RecoveryTxs

end CwBitcoin
