import CwBitcoin.Interface
import Mathlib.Data.List.Lex
import Mathlib.Data.List.Sort
import Mathlib.Data.Nat.Size
import Mathlib.Data.Prod.Lex

/-!
# Signatory sets

A signatory set is built from the validators that have submitted an extended
public key.  It guards an output with a weighted multisignature script, whose
weights are the voting powers without their low bits.
-/

namespace CwBitcoin

/-- A public key with its voting power. -/
structure Signatory where
  votingPower : Nat
  pubkey : Pubkey
  deriving DecidableEq, Repr

/-- The key by which signatories are ordered: voting power, then public key. -/
def Signatory.rank (signatory : Signatory) : Nat ×ₗ List Nat :=
  toLex (signatory.votingPower, signatory.pubkey.bytes.map UInt8.toNat)

/-- A set of signers who secure an output of the reserve. -/
structure SignatorySet where
  createTime : Nat
  /-- The voting power of the signatories. -/
  presentVp : Nat
  /-- The voting power of all validators. -/
  possibleVp : Nat
  index : Nat
  signatories : List Signatory
  deriving DecidableEq, Repr

namespace SignatorySet

def insert (sigset : SignatorySet) (signatory : Signatory) : ContractResult SignatorySet := do
  let presentVp ← Outcome.checkedAdd 64 sigset.presentVp signatory.votingPower
  return { sigset with presentVp, signatories := sigset.signatories ++ [signatory] }

/-- Subtract the voting powers of the signatories that are cut off. -/
def removeVp (presentVp : Nat) : List Signatory → ContractResult Nat
  | [] => .ok presentVp
  | removed :: rest => do
      let presentVp ← Outcome.checkedSub presentVp removed.votingPower
      removeVp presentVp rest

/-- Sort the signatories from the highest rank down and keep the first ones. -/
def sortAndTruncate (sigset : SignatorySet) : ContractResult SignatorySet := do
  let sorted := sigset.signatories.insertionSort fun first second => second.rank ≤ first.rank
  let presentVp ← removeVp sigset.presentVp (sorted.drop MAX_SIGNATORIES)
  return { sigset with presentVp, signatories := sorted.take MAX_SIGNATORIES }

/-- Take one validator into account.  Validators without a key only count
towards the possible voting power. -/
def addValidator (host : Host) (sigKey : ConsensusKey → Option Xpub) (sigset : SignatorySet)
    (entry : Validator) : ContractResult SignatorySet := do
  let possibleVp ← Outcome.checkedAdd 64 sigset.possibleVp entry.power
  let sigset := { sigset with possibleVp }
  match sigKey entry.pubkey with
  | none => return sigset
  | some xpub => do
      let pubkey ← xpub.derivePubkey host sigset.index
      sigset.insert { votingPower := entry.power, pubkey }

/-- Create a signatory set from the current validators and their keys. -/
def fromValidatorCtx (host : Host) (validators : List Validator)
    (sigKey : ConsensusKey → Option Xpub) (createTime index : Nat) :
    ContractResult SignatorySet := do
  let sigset : SignatorySet :=
    { createTime, presentVp := 0, possibleVp := 0, index, signatories := [] }
  let sigset ← validators.foldlM (addValidator host sigKey) sigset
  sigset.sortAndTruncate

/-- The voting power that must be exceeded to spend.  The quotient is cut to
64 bits. -/
def signatureThreshold (sigset : SignatorySet) (threshold : Nat × Nat) : ContractResult Nat := do
  let product ← Outcome.checkedMul 128 sigset.presentVp threshold.1
  let quotient ← Outcome.checkedDiv product threshold.2
  return quotient % 2 ^ 64

def quorumThreshold (sigset : SignatorySet) : Nat := sigset.possibleVp / 2

/-- Whether enough validators have submitted a key. -/
def hasQuorum (sigset : SignatorySet) : Bool := sigset.quorumThreshold ≤ sigset.presentVp

/-- How many low bits of the voting powers a script leaves out. -/
def getTruncation (sigset : SignatorySet) (targetPrecision : Nat) : Nat :=
  sigset.presentVp.size - targetPrecision

/-- The estimated size of a witness with all signatures, in virtual bytes. -/
def estWitnessVsize (sigset : SignatorySet) : Nat := sigset.signatories.length * 79 + 39

section RedeemScript

open Script

/-- Check the first signature and leave the voting power it adds. -/
def firstSignatoryScript (signatory : Signatory) (truncatedVotingPower : Int) : Script :=
  pushSlice signatory.pubkey.bytes ++ [OP_CHECKSIG, OP_IF] ++ pushInt truncatedVotingPower ++
    [OP_ELSE] ++ pushInt 0 ++ [OP_ENDIF]

/-- Check a further signature and add its voting power to the accumulator. -/
def otherSignatoryScript (signatory : Signatory) (truncatedVotingPower : Int) : Script :=
  [OP_SWAP] ++ pushSlice signatory.pubkey.bytes ++ [OP_CHECKSIG, OP_IF] ++
    pushInt truncatedVotingPower ++ [OP_ADD, OP_ENDIF]

/-- The script that a witness must satisfy to spend an output of the set.  It
ends with a commitment to arbitrary data, which is dropped. -/
def redeemScript (sigset : SignatorySet) (dest : Bytes) (threshold : Nat × Nat) :
    ContractResult Script := do
  let truncation := sigset.getTruncation 23
  match sigset.signatories with
  | [] => Outcome.fail (.app "Cannot create redeem script for empty signatory set")
  | first :: others => do
      let firstScript := firstSignatoryScript first (asI64 (first.votingPower >>> truncation))
      let otherScripts := others.flatMap fun signatory =>
        otherSignatoryScript signatory (asI64 (signatory.votingPower >>> truncation))
      let truncatedThreshold := (← sigset.signatureThreshold threshold) >>> truncation
      Outcome.assert (dest.length < 2 ^ 32)
      return firstScript ++ otherScripts ++
        (pushInt (asI64 truncatedThreshold) ++ [OP_GREATERTHAN]) ++ (pushSlice dest ++ [OP_DROP])

end RedeemScript

/-- The output script that holds the hash of the redeem script. -/
def outputScript (host : Host) (sigset : SignatorySet) (dest : Bytes) (threshold : Nat × Nat) :
    ContractResult Script := do
  let redeemScript ← sigset.redeemScript dest threshold
  return toV0P2wsh host redeemScript

end SignatorySet

end CwBitcoin
