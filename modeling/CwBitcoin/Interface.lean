import CwBitcoin.Primitives

/-!
# Destinations and configuration

The destination of a deposit with the bytes that commit to it, the messages
that pay a destination out, and the configuration parameters of the bridge,
of the checkpoint queue and of the header queue with their defaults.
-/

namespace CwBitcoin

section Constants

def MIN_FEE_RATE : Nat := 40
def MAX_FEE_RATE : Nat := 1000
def USER_FEE_FACTOR : Nat := 27000
def DEFAULT_FEE_RATE : Nat := 55
def TRANSFER_FEE : Nat := 0
def MAX_DEPOSIT_AGE : Nat := 60 * 60 * 24 * 7 * 2
def MAX_CHECKPOINT_INTERVAL : Nat := 60 * 60 * 24 * 12
def MAX_CHECKPOINT_AGE : Nat := 60 * 60 * 24 * 7 * 3
def MIN_DEPOSIT_AMOUNT : Nat := 5000
def MIN_WITHDRAWAL_AMOUNT : Nat := 5000
def MAX_LENGTH : Nat := 24192
def MAX_HEADERS_RELAY_ONE_TIME : Nat := 1000
def MAX_TIME_INCREASE : Nat := 2 * 60 * 60
def RETARGET_INTERVAL : Nat := 2016
def TARGET_SPACING : Nat := 10 * 60
def TARGET_TIMESPAN : Nat := RETARGET_INTERVAL * TARGET_SPACING
def MAX_TARGET : Nat := 0x1d00ffff
def MAX_SIGNATORIES : Nat := 20
def SIGSET_THRESHOLD : Nat × Nat := (2, 3)
def BTC_NATIVE_TOKEN_DENOM : String := "obtc"

end Constants

/-- Where a deposit is credited. -/
inductive Dest where
  | address (addr : Addr)
  | ibc (dest : IbcDest)
  deriving DecidableEq, Repr

/-- The bytes that tie the output of a deposit to its destination. -/
def Dest.commitmentBytes (host : Host) : Dest → Bytes
  | .address addr => utf8 addr
  | .ibc dest => host.sha256 (host.ibcDestJson dest)

/-- The environment of a call. -/
structure Env where
  blockTimeNanos : Nat
  contractAddress : Addr
  deriving DecidableEq, Repr

/-- The block time in seconds. -/
def Env.seconds (env : Env) : Nat := env.blockTimeNanos / 1000000000

structure MessageInfo where
  sender : Addr
  funds : List Coin
  deriving DecidableEq, Repr

/-- The messages that the contract sends to other contracts. -/
inductive CosmosMsg where
  | mintTokens (contractAddr : Addr) (denom : String) (amount : Nat) (mintToAddress : Addr)
  | burnTokens (contractAddr : Addr) (denom : String) (amount : Nat) (burnFromAddress : Addr)
  | universalSwap (contractAddr : Addr) (memo : String) (funds : List Coin)
  | createDenom (contractAddr : Addr) (subdenom : String) (metadata : Option String)
      (funds : List Coin)
  | changeDenomOwner (contractAddr : Addr) (denom : String) (newAdminAddress : Addr)
      (funds : List Coin)
  deriving DecidableEq, Repr

/-- The messages that credit a destination with a coin. -/
def Dest.buildCosmosMsg (host : Host) (env : Env) (coin : Coin)
    (bitcoinBridgeAddr tokenFactoryAddr : Addr) (osorApiContract : Option Addr) :
    Dest → List CosmosMsg
  | .address addr => [.mintTokens tokenFactoryAddr coin.denom coin.amount addr]
  | .ibc dest =>
      match osorApiContract with
      | none => [.mintTokens tokenFactoryAddr coin.denom coin.amount dest.sender]
      | some osorApi =>
          if dest.timeoutTimestamp < env.blockTimeNanos then
            [.mintTokens tokenFactoryAddr coin.denom coin.amount dest.sender]
          else if dest.sourcePort ≠ "transfer" then []
          else
            let memo : Memo :=
              { minimumReceive := coin.amount.repr
                receiver := dest.receiver
                sourcePort := dest.sourcePort
                sourceChannel := dest.sourceChannel
                memo := dest.memo
                recoverAddress := dest.sender
                recoveryAddr := dest.sender
                timeoutTimestamp := dest.timeoutTimestamp }
            [.mintTokens tokenFactoryAddr coin.denom coin.amount bitcoinBridgeAddr,
              .universalSwap osorApi (host.encodeMemo memo) [coin]]

structure Validator where
  pubkey : ConsensusKey
  power : Nat
  deriving DecidableEq, Repr

/-- The parameters of the bridge that its calls read. -/
structure BitcoinConfig where
  minWithdrawalCheckpoints : Nat
  minDepositAmount : Nat
  minWithdrawalAmount : Nat
  maxWithdrawalAmount : Nat
  maxWithdrawalScriptLength : Nat
  transferFee : Nat
  minConfirmations : Nat
  /-- How many units of the bridged coin one satoshi is. -/
  unitsPerSat : Nat
  maxOfflineCheckpoints : Nat
  minCheckpointConfirmations : Nat
  capacityLimit : Nat
  maxDepositAge : Nat
  feePoolTargetBalance : Nat
  feePoolRewardSplit : Nat × Nat
  deriving DecidableEq, Repr

def BitcoinConfig.default : BitcoinConfig where
  minWithdrawalCheckpoints := 4
  minDepositAmount := MIN_DEPOSIT_AMOUNT
  minWithdrawalAmount := MIN_WITHDRAWAL_AMOUNT
  maxWithdrawalAmount := 64
  maxWithdrawalScriptLength := 64
  transferFee := TRANSFER_FEE
  minConfirmations := 1
  unitsPerSat := 1000000
  maxOfflineCheckpoints := 20
  minCheckpointConfirmations := 0
  capacityLimit := 21 * 100000000
  maxDepositAge := MAX_DEPOSIT_AGE
  feePoolTargetBalance := 100000000
  feePoolRewardSplit := (1, 10)

/-- The parameters used in processing checkpoints. -/
structure CheckpointConfig where
  minCheckpointInterval : Nat
  maxCheckpointInterval : Nat
  maxInputs : Nat
  maxOutputs : Nat
  feeRate : Nat
  maxAge : Nat
  targetCheckpointInclusion : Nat
  minFeeRate : Nat
  maxFeeRate : Nat
  userFeeFactor : Nat
  /-- The part of the voting power needed to spend, as a ratio. -/
  sigsetThreshold : Nat × Nat
  maxUnconfirmedCheckpoints : Nat
  deriving DecidableEq, Repr

def CheckpointConfig.default : CheckpointConfig where
  minCheckpointInterval := 60 * 5
  maxCheckpointInterval := MAX_CHECKPOINT_INTERVAL
  maxInputs := 40
  maxOutputs := 200
  maxAge := MAX_CHECKPOINT_AGE
  targetCheckpointInclusion := 2
  minFeeRate := MIN_FEE_RATE
  maxFeeRate := MAX_FEE_RATE
  userFeeFactor := USER_FEE_FACTOR
  sigsetThreshold := SIGSET_THRESHOLD
  maxUnconfirmedCheckpoints := 15
  feeRate := 0

/-- The parameters for processing Bitcoin headers. -/
structure HeaderConfig where
  maxLength : Nat
  maxTimeIncrease : Nat
  trustedHeight : Nat
  retargetInterval : Nat
  targetSpacing : Nat
  targetTimespan : Nat
  maxTarget : Nat
  retargeting : Bool
  minDifficultyBlocks : Bool
  trustedHeader : BlockHeader
  deriving DecidableEq, Repr

/-- The header from which the mainnet header queue starts.  Hashes are given
in the order of the bytes that are displayed. -/
def HeaderConfig.mainnetHeader : BlockHeader where
  version := 1073676288
  prevBlockhash := Bytes.be 32
    0x000000000000000000034e1a8f7c1efee7c36209a1556a377568d6368431dd17
  merkleRoot := Bytes.be 32
    0x7718a5c199d9a5b6ad3d1424db6d4212bbbc1cbfe573caf58f129d24e40b15eb
  time := 1691584068
  bits := 386228059
  nonce := 4602308

def HeaderConfig.mainnet : HeaderConfig where
  maxLength := MAX_LENGTH
  maxTimeIncrease := MAX_TIME_INCREASE
  trustedHeight := 802368
  retargetInterval := RETARGET_INTERVAL
  targetSpacing := TARGET_SPACING
  targetTimespan := TARGET_TIMESPAN
  maxTarget := MAX_TARGET
  trustedHeader := mainnetHeader
  retargeting := true
  minDifficultyBlocks := false

/-- The contract addresses and fees that the owner maintains. -/
structure Config where
  tokenFactoryAddr : Addr
  owner : Addr
  relayerFeeToken : AssetInfo
  relayerFee : Nat
  tokenFeeReceiver : Addr
  relayerFeeReceiver : Addr
  swapRouterContract : Option Addr
  osorEntryPointContract : Option Addr
  deriving DecidableEq, Repr

structure Ratio where
  nominator : Nat
  denominator : Nat
  deriving DecidableEq, Repr

end CwBitcoin
