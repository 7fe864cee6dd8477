import CwBitcoin.Error
import CwBitcoin.Library.Script

/-!
# Bitcoin data and the functions of the host

The data of Bitcoin transactions and block headers as the contract reads them,
and the third-party functions it calls: hashing, signature verification, the
arithmetic of compact targets, address parsing and queries of other contracts.
A `Host` carries what the contract relies on about them as fields.
-/

namespace CwBitcoin

/-- A reference to an output of a transaction. -/
structure OutPoint where
  txid : Bytes
  vout : Nat
  deriving DecidableEq, Repr

structure TxIn where
  previousOutput : OutPoint
  scriptSig : Script
  sequence : Nat
  witness : List Bytes
  deriving DecidableEq, Repr

structure TxOut where
  value : Nat
  scriptPubkey : Script
  deriving DecidableEq, Repr

structure Transaction where
  version : Int
  lockTime : Nat
  input : List TxIn
  output : List TxOut
  deriving DecidableEq, Repr

/-- A transaction as its identifier sees it, without witnesses. -/
def Transaction.stripWitness (tx : Transaction) : Transaction :=
  { tx with input := tx.input.map fun input => { input with witness := [] } }

structure BlockHeader where
  version : Int
  prevBlockhash : Bytes
  merkleRoot : Bytes
  time : Nat
  bits : Nat
  nonce : Nat
  deriving DecidableEq, Repr

structure PartialMerkleTree where
  numTransactions : Nat
  bits : List Bool
  hashes : List Bytes
  deriving DecidableEq, Repr

/-- 256-bit unsigned numbers, whose operations wrap around. -/
abbrev Uint256 := BitVec 256

/-- A compressed secp256k1 public key. -/
structure Pubkey where
  bytes : Bytes
  length_eq : bytes.length = 33
  deriving DecidableEq, Repr

/-- A compact secp256k1 ECDSA signature. -/
structure Signature where
  bytes : Bytes
  deriving DecidableEq, Repr

inductive Network where
  | bitcoin
  | testnet
  deriving DecidableEq, Repr

/-- A Bitcoin extended public key, used to derive the public keys with which
signatories sign transactions. -/
structure Xpub where
  network : Network
  depth : Nat
  parentFingerprint : Bytes
  childNumber : Nat
  publicKey : Pubkey
  chainCode : Bytes
  deriving DecidableEq, Repr

/-- The serialized form of an extended public key. -/
def Xpub.encode (xpub : Xpub) : Bytes :=
  (match xpub.network with
    | .bitcoin => [0x04, 0x88, 0xB2, 0x1E]
    | .testnet => [0x04, 0x35, 0x87, 0xCF]) ++
  Bytes.be 1 xpub.depth ++ xpub.parentFingerprint ++ Bytes.be 4 xpub.childNumber ++
  xpub.chainCode ++ xpub.publicKey.bytes

/-- A Tendermint public key. -/
abbrev ConsensusKey := Bytes

/-- An account or contract address. -/
abbrev Addr := String

structure Coin where
  denom : String
  amount : Nat
  deriving DecidableEq, Repr

inductive AssetInfo where
  | token (contractAddr : Addr)
  | nativeToken (denom : String)
  deriving DecidableEq, Repr

structure SwapOperation where
  offerAssetInfo : AssetInfo
  askAssetInfo : AssetInfo
  deriving DecidableEq, Repr

structure IbcDest where
  sourcePort : String
  sourceChannel : String
  receiver : String
  sender : String
  timeoutTimestamp : Nat
  memo : String
  deriving DecidableEq, Repr

/-- The instruction of the swap contract that forwards a minted coin. -/
structure Memo where
  minimumReceive : String
  receiver : String
  sourcePort : String
  sourceChannel : String
  memo : String
  recoverAddress : String
  recoveryAddr : String
  timeoutTimestamp : Nat
  deriving DecidableEq, Repr

/-- The functions that the contract takes from its libraries and its chain. -/
structure Host where
  /-- The hash that identifies a transaction, given without witnesses. -/
  txHash : Transaction → Bytes
  /-- The SegWit signature hash of an input under `SIGHASH_ALL`: transaction
  without witnesses, input index, redeem script and amount. -/
  segwitSignatureHash : Transaction → Nat → Script → Nat → Bytes
  /-- The size of a transaction in virtual bytes. -/
  vsize : Transaction → Nat
  sha256 : Bytes → Bytes
  /-- The largest value of an output with this script that counts as dust. -/
  dustValue : Script → Nat
  /-- The child public key of an extended key at a normal index. -/
  childPubkey : Xpub → Nat → ContractResult Pubkey
  /-- Verify a signature: message, signature, public key. -/
  secp256k1Verify : Bytes → Bytes → Bytes → ContractResult Bool
  /-- The DER form of a compact signature. -/
  compactToDer : Bytes → ContractResult Bytes
  /-- The Merkle root of a partial tree and the transactions it matches. -/
  extractMatches : PartialMerkleTree → Option (Bytes × List Bytes)
  blockHash : BlockHeader → Bytes
  /-- The work that a header represents, measured in hashes. -/
  work : BlockHeader → Uint256
  u256FromCompactTarget : Nat → Uint256
  compactTargetFromU256 : Uint256 → Nat
  /-- The number that a block hash denotes when it is compared with a target. -/
  hashValue : Bytes → Uint256
  /-- Check a header against the required target, giving its hash. -/
  validatePow : BlockHeader → Uint256 → ContractResult Bytes
  /-- A header passes only with the required target and a hash that meets it. -/
  validatePow_ok : ∀ header required hash, validatePow header required = .ok hash →
    hash = blockHash header ∧ required = u256FromCompactTarget header.bits ∧
      hashValue hash ≤ required
  /-- The output script of a Bitcoin address. -/
  addressScript : String → Except String Script
  /-- The network for which the contract was built. -/
  network : Network
  ibcDestJson : IbcDest → Bytes
  encodeMemo : Memo → String
  addrValidate : String → Bool

/-- The queries of other contracts at the time of a call. -/
structure Querier where
  /-- The amount that the router returns: offered amount, router, operations. -/
  simulateSwap : Nat → Addr → List SwapOperation → Option Nat

/-- The transaction identifier, which ignores witnesses. -/
def Transaction.txid (host : Host) (tx : Transaction) : Bytes :=
  host.txHash tx.stripWitness

/-- The signed 64-bit word with the same bits. -/
def asI64 (value : Nat) : Int := (BitVec.ofNat 64 value).toInt

theorem asI64_of_lt {value : Nat} (small : value < 2 ^ 63) : asI64 value = value := by
  rw [asI64, BitVec.toInt_eq_toNat_bmod, BitVec.toNat_ofNat, Int.bmod_def]
  omega

theorem natAbs_asI64_lt (value : Nat) : (asI64 value).natAbs < 2 ^ 64 := by
  rw [asI64, BitVec.toInt_eq_toNat_bmod, BitVec.toNat_ofNat, Int.bmod_def]
  omega

theorem asI64_injOn {first second : Nat} (firstSmall : first < 2 ^ 64)
    (secondSmall : second < 2 ^ 64) (equal : asI64 first = asI64 second) : first = second := by
  rw [asI64, asI64, BitVec.toInt_inj] at equal
  have values := congrArg BitVec.toNat equal
  rwa [BitVec.toNat_ofNat, BitVec.toNat_ofNat, Nat.mod_eq_of_lt firstSmall,
    Nat.mod_eq_of_lt secondSmall] at values

/-- The output script that pays to the hash of a witness script. -/
def toV0P2wsh (host : Host) (script : Script) : Script :=
  0x00 :: 0x20 :: host.sha256 script

/-- The output script that carries data and cannot be spent. -/
def newOpReturn (data : Bytes) : ContractResult Script := do
  Outcome.assert (data.length < 2 ^ 32)
  return Script.OP_RETURN :: Script.pushSlice data

/-- The bytes of a text. -/
def utf8 (text : String) : Bytes := text.toUTF8.data.toList

/-- The public key of a signatory in a signatory set, which depends on the
index of the set. -/
def Xpub.derivePubkey (host : Host) (xpub : Xpub) (sigsetIndex : Nat) :
    ContractResult Pubkey := do
  Outcome.require (sigsetIndex < 2 ^ 31) (.bip32 s!"invalid child number: {sigsetIndex}")
  host.childPubkey xpub sigsetIndex

namespace Sample

/-! A host for concrete runs.  Hashes are the data they hash, a signature is
the public key of its signer, and a partial Merkle tree proves the only
transaction of its block. -/

/-- A transaction without witnesses as bytes. -/
def transactionBytes (tx : Transaction) : Bytes :=
  Bytes.le 4 tx.version.toNat ++
  (tx.input.flatMap fun input =>
    input.previousOutput.txid ++ Bytes.le 4 input.previousOutput.vout) ++
  (tx.output.flatMap fun output => Bytes.le 8 output.value ++ output.scriptPubkey) ++
  Bytes.le 4 tx.lockTime

def target (bits : Nat) : Uint256 := BitVec.ofNat 256 bits

def hashValue (hash : Bytes) : Uint256 := BitVec.ofNat 256 (Bytes.ofLe hash)

def blockHash (header : BlockHeader) : Bytes := Bytes.le 4 header.nonce

/-- The check of the proof of work, where the given function reads the target. -/
def validatePow (target : Nat → Uint256) (header : BlockHeader) (required : Uint256) :
    ContractResult Bytes :=
  if target header.bits ≠ required then Outcome.fail (.bitcoin "block target correct")
  else if hashValue (blockHash header) ≤ required then .ok (blockHash header)
  else Outcome.fail (.bitcoin "block target correct but not attained")

theorem validatePow_ok (target : Nat → Uint256) (header : BlockHeader) (required : Uint256)
    (hash : Bytes) (valid : validatePow target header required = .ok hash) :
    hash = blockHash header ∧ required = target header.bits ∧ hashValue hash ≤ required := by
  unfold validatePow at valid
  split_ifs at valid with differs meets
  · simp at valid
  · cases valid
    exact ⟨rfl, (not_ne_iff.mp differs).symm, meets⟩
  · simp at valid

/-- The length of a script with its prefix. -/
def encodedLength (script : Script) : Nat :=
  script.length + if script.length < 0xfd then 1 else if script.length < 2 ^ 16 then 3 else 5

def isWitnessProgram : Script → Bool
  | version :: push :: program =>
      (version = 0 ∨ 0x51 ≤ version ∧ version ≤ 0x60) ∧ push.toNat = program.length ∧
        2 ≤ program.length ∧ program.length ≤ 40
  | _ => false

/-- Three satoshis for each byte of the output and of an input that spends it. -/
def dustValue (script : Script) : Nat :=
  if script.head? = some 0x6a then 0
  else if isWitnessProgram script then 3 * (75 + encodedLength script)
  else 3 * (156 + encodedLength script)

def host : Host where
  txHash := transactionBytes
  segwitSignatureHash tx index _ _ := transactionBytes tx ++ Bytes.le 4 index
  vsize tx := 11 + 41 * tx.input.length + 43 * tx.output.length
  sha256 := id
  dustValue := dustValue
  childPubkey xpub _ := .ok xpub.publicKey
  secp256k1Verify _ signature pubkey := .ok (signature = pubkey)
  compactToDer signature := .ok signature
  extractMatches tree :=
    match tree.hashes with
    | [txid] => some (txid, [txid])
    | _ => none
  blockHash := blockHash
  work header := BitVec.ofNat 256 header.bits
  u256FromCompactTarget := target
  compactTargetFromU256 := BitVec.toNat
  hashValue := hashValue
  validatePow := validatePow target
  validatePow_ok := validatePow_ok target
  addressScript address := .ok (0x00 :: 0x14 :: utf8 address)
  network := .bitcoin
  ibcDestJson dest := utf8 dest.receiver
  encodeMemo memo := memo.receiver
  addrValidate _ := false

def querier : Querier where
  simulateSwap _ _ _ := none

def pubkey (tag : UInt8) : Pubkey := ⟨0x02 :: List.replicate 31 0 ++ [tag], rfl⟩

def xpub (tag : UInt8) : Xpub where
  network := .bitcoin
  depth := 0
  parentFingerprint := [0, 0, 0, 0]
  childNumber := 0
  publicKey := pubkey tag
  chainCode := List.replicate 32 0

/-- The consensus key of the validator with the given tag. -/
def consensusKey (tag : UInt8) : ConsensusKey := List.replicate 31 0 ++ [tag]

end Sample

end CwBitcoin
