import CwBitcoin.Signatory

/-!
# Threshold signatures

The state in which the signers of a set collect their signatures for one
message, and the witness made from it.
-/

namespace CwBitcoin

/-- The voting power of a signer, and the signature once there is one. -/
structure Share where
  power : Nat
  sig : Option Signature
  deriving DecidableEq, Repr

/-- The coordination of one message by a set of signers. -/
structure ThresholdSig where
  /-- The voting power that must be exceeded. -/
  threshold : Nat
  /-- The voting power of the signers who have signed. -/
  signedPower : Nat
  message : Bytes
  len : Nat
  sigs : List (Pubkey × Share)
  deriving DecidableEq, Repr

namespace ThresholdSig

def default : ThresholdSig where
  threshold := 0
  signedPower := 0
  message := List.replicate 32 0
  len := 0
  sigs := []

def setMessage (ts : ThresholdSig) (message : Bytes) : ThresholdSig := { ts with message }

/-- The part of a total voting power that must be exceeded. -/
def thresholdOf (totalVp : Nat) : Nat := totalVp * SIGSET_THRESHOLD.1 / SIGSET_THRESHOLD.2

/-- The state for the given shares, with the length as a 16-bit number. -/
def ofShares (shares : List (Pubkey × Share)) : ContractResult ThresholdSig := do
  let len ← Outcome.checkedAdd 16 0 shares.length
  let totalVp ← Outcome.checkedSum 64 0 (shares.map fun entry => entry.2.power)
  return { default with threshold := thresholdOf totalVp, len, sigs := shares }

/-- A new signing state has the given shares, whose voting power is in range. -/
theorem ofShares_eq_ok {shares : List (Pubkey × Share)} {ts : ThresholdSig}
    (started : ofShares shares = .ok ts) :
    (shares.map fun entry => entry.2.power).sum < 2 ^ 64 ∧
      ts = { default with
        threshold := thresholdOf (shares.map fun entry => entry.2.power).sum
        len := shares.length
        sigs := shares } := by
  simp only [ofShares, Outcome.bind_eq_ok, Outcome.checkedAdd_eq_ok, Outcome.pure_eq_ok] at started
  obtain ⟨_, ⟨-, rfl⟩, totalVp, summed, rfl⟩ := started
  have total := Outcome.checkedSum_eq_ok summed
  have inRange := Outcome.checkedSum_lt (by decide) summed
  rw [Nat.zero_add] at total
  rw [total] at inRange ⊢
  exact ⟨inRange, by rw [Nat.zero_add]⟩

/-- Start with the signers of a signatory set. -/
def fromSigset (signatories : SignatorySet) : ContractResult ThresholdSig :=
  ofShares (signatories.signatories.map fun signatory =>
    (signatory.pubkey, { power := signatory.votingPower, sig := none }))

/-- Start with the given shares, which must be unsigned. -/
def fromShares (shares : List (Pubkey × Share)) : ContractResult ThresholdSig := do
  Outcome.assert (∀ entry ∈ shares, entry.2.sig = none)
  ofShares shares

/-- More than the threshold of voting power has signed. -/
def signed (ts : ThresholdSig) : Bool := ts.threshold < ts.signedPower

def shares (ts : ThresholdSig) : List (Pubkey × Share) := ts.sigs

/-- The first share of the public key. -/
def findShare (ts : ThresholdSig) (pubkey : Pubkey) : Option Share :=
  (ts.sigs.find? fun entry => pubkey = entry.1).map Prod.snd

/-- The public key belongs to a signer who has not signed yet. -/
def needsSig (ts : ThresholdSig) (pubkey : Pubkey) : Bool :=
  match ts.findShare pubkey with
  | some share => share.sig.isNone
  | none => false

/-- Put a signature into the first share of the public key. -/
def putSig (pubkey : Pubkey) (sig : Signature) : List (Pubkey × Share) → List (Pubkey × Share)
  | [] => []
  | entry :: rest =>
      if pubkey = entry.1 then (entry.1, { entry.2 with sig := some sig }) :: rest
      else entry :: putSig pubkey sig rest

def secpVerify (host : Host) (message : Bytes) (pubkey : Pubkey) (sig : Signature) :
    ContractResult Unit := do
  let verified ← host.secp256k1Verify message sig.bytes pubkey.bytes
  Outcome.require verified (.app "Can not verify signature")

/-- Verify a signature and add it to the share of its signer. -/
def sign (host : Host) (ts : ThresholdSig) (pubkey : Pubkey) (sig : Signature) :
    ContractResult ThresholdSig := do
  let share ← Outcome.getOr Outcome.abort (ts.findShare pubkey)
  Outcome.require (share.sig = none) (.app "Pubkey already signed")
  secpVerify host ts.message pubkey sig
  let signedPower ← Outcome.checkedAdd 64 ts.signedPower share.power
  return { ts with signedPower, sigs := putSig pubkey sig ts.sigs }

/-- The key by which the entries of a witness are ordered. -/
def witnessRank (entry : Pubkey × Share) : Nat ×ₗ List Nat :=
  toLex (entry.2.power, entry.1.bytes.map UInt8.toNat)

/-- The witness element of a share: a DER signature with the hash type, or
nothing. -/
def witnessElement (host : Host) (share : Share) : ContractResult Bytes :=
  match share.sig with
  | none => .ok []
  | some sig => do
      let der ← host.compactToDer sig.bytes
      return der ++ [0x01]

/-- The signatures from the lowest voting power up, opposite to the order of
the public keys in the script, once enough have signed. -/
def toWitness (host : Host) (ts : ThresholdSig) : ContractResult (List Bytes) :=
  if ts.signed then
    let entries := ts.sigs.insertionSort fun first second => witnessRank first ≤ witnessRank second
    entries.mapM fun entry => witnessElement host entry.2
  else .ok []

end ThresholdSig

end CwBitcoin
