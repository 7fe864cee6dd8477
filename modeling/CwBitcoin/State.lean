import CwBitcoin.Checkpoint
import CwBitcoin.Header
import CwBitcoin.Library.StorageMap

/-!
# The storage of the contract

The items that the contract keeps between calls.  The checkpoint deque is the
list of its elements with the position of the first one; how it is laid out in
raw storage is the subject of a file of its own.
-/

namespace CwBitcoin

/-- A transaction that pays an expired deposit to the current signatory set. -/
structure RecoveryTx where
  tx : BitcoinTx
  oldSigsetIndex : Nat
  newSigsetIndex : Nat
  dest : Dest
  deriving DecidableEq, Repr

/-- The checkpoint queue with its indexes. -/
structure QueueStore where
  checkpoints : List Checkpoint
  /-- The position of the oldest checkpoint in the deque. -/
  head : Nat
  buildingIndex : Nat
  confirmedIndex : Option Nat
  firstUnhandledConfirmedIndex : Nat
  deriving DecidableEq, Repr

structure Store where
  queue : QueueStore
  feePool : Int
  outpoints : List OutPoint
  expirationQueue : List (Nat × OutPoint)
  recoveryTxs : List RecoveryTx
  headers : HeaderStore
  bitcoinConfig : BitcoinConfig
  checkpointConfig : CheckpointConfig
  config : Config
  tokenFeeRatio : Option Ratio
  /-- The voting power and address of each validator. -/
  validators : StorageMap ConsensusKey (Nat × Addr)
  /-- The consensus key of each validator address. -/
  signers : StorageMap Addr ConsensusKey
  sigKeys : StorageMap ConsensusKey Xpub
  /-- The extended public keys in use, each with its place in a tree erased. -/
  xpubs : List Bytes
  blockHashes : List Bytes
  deriving DecidableEq, Repr

namespace Store

def getValidators (store : Store) : List Validator :=
  store.validators.map fun entry => { pubkey := entry.1, power := entry.2.1 }

/-- The signatory set for the current validators. -/
def signatorySet (host : Host) (store : Store) (createTime index : Nat) :
    ContractResult SignatorySet :=
  SignatorySet.fromValidatorCtx host store.getValidators store.sigKeys.load createTime index

end Store

def getFullBtcDenom (tokenFactoryAddr : Addr) : String :=
  "factory/" ++ tokenFactoryAddr ++ "/" ++ BTC_NATIVE_TOKEN_DENOM

/-- The integers that fit into a signed 64-bit word. -/
def FitsI64 (value : Int) : Prop := -2 ^ 63 ≤ value ∧ value < 2 ^ 63

instance (value : Int) : Decidable (FitsI64 value) :=
  inferInstanceAs (Decidable (_ ∧ _))

/-- The low 64 bits of a number. -/
def asU64 (value : Nat) : Nat := value % 2 ^ 64

/-- A signed 64-bit result, which panics on overflow. -/
def checkedI64 (value : Int) : ContractResult Int :=
  if FitsI64 value then .ok value else Outcome.abort

@[simp]
theorem checkedI64_eq_ok {value result : Int} :
    checkedI64 value = .ok result ↔ FitsI64 value ∧ value = result := by
  unfold checkedI64
  split <;> simp_all

end CwBitcoin
