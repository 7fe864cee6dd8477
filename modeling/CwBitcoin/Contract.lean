import CwBitcoin.App

/-!
# The entry points of the contract

`instantiate`, the messages of `execute`, and the call at the end of a block.
A call that fails leaves the storage as it was.
-/

namespace CwBitcoin

structure InstantiateMsg where
  tokenFactoryAddr : Addr
  relayerFeeReceiver : Addr
  tokenFeeReceiver : Addr
  relayerFeeToken : AssetInfo
  relayerFee : Nat
  swapRouterContract : Option Addr
  osorEntryPointContract : Option Addr
  deriving DecidableEq, Repr

inductive ExecuteMsg where
  | updateConfig (relayerFeeToken : Option AssetInfo) (tokenFeeReceiver : Option Addr)
      (relayerFeeReceiver : Option Addr) (relayerFee : Option Nat)
      (swapRouterContract : Option Addr) (tokenFee : Option Ratio)
      (tokenFactoryAddr : Option Addr) (owner : Option Addr)
  | relayDeposit (btcTx : Transaction) (btcHeight : Nat) (btcProof : PartialMerkleTree)
      (btcVout sigsetIndex : Nat) (dest : Dest)
  | relayCheckpoint (btcHeight : Nat) (btcProof : PartialMerkleTree) (cpIndex : Nat)
  | withdrawToBitcoin (btcAddress : String)
  | relayHeaders (headers : List WrappedHeader)
  | updateHeaderConfig (config : HeaderConfig)
  | updateBitcoinConfig (config : BitcoinConfig)
  | updateCheckpointConfig (config : CheckpointConfig)
  | submitCheckpointSignature (xpub : Xpub) (sigs : List Signature)
      (checkpointIndex btcHeight : Nat)
  | submitRecoverySignature (xpub : Xpub) (sigs : List Signature)
  | setSignatoryKey (xpub : Xpub)
  | addValidators (addrs : List Addr) (votingPowers : List Nat)
      (consensusKeys : List ConsensusKey)
  | registerDenom (subdenom : String) (metadata : Option String)
  | changeBtcDenomOwner (newOwner : Addr)
  | triggerBeginBlock (hash : Bytes)
  deriving DecidableEq, Repr

namespace Contract

abbrev Response := Store × List CosmosMsg

def instantiate (host : Host) (info : MessageInfo) (msg : InstantiateMsg) : Store where
  queue := {
    checkpoints := []
    head := 0
    buildingIndex := 0
    confirmedIndex := none
    firstUnhandledConfirmedIndex := 0 }
  feePool := 0
  outpoints := []
  expirationQueue := []
  recoveryTxs := []
  headers := HeaderQueue.configure host HeaderConfig.mainnet
  bitcoinConfig := BitcoinConfig.default
  checkpointConfig := CheckpointConfig.default
  config := {
    owner := info.sender
    tokenFactoryAddr := msg.tokenFactoryAddr
    relayerFeeReceiver := msg.relayerFeeReceiver
    tokenFeeReceiver := msg.tokenFeeReceiver
    relayerFeeToken := msg.relayerFeeToken
    relayerFee := msg.relayerFee
    swapRouterContract := msg.swapRouterContract
    osorEntryPointContract := msg.osorEntryPointContract }
  tokenFeeRatio := none
  validators := []
  signers := []
  sigKeys := []
  xpubs := []
  blockHashes := []

section Execute

variable (store : Store) (info : MessageInfo)

/-- Calls of the owner panic for anybody else. -/
def assertOwner : ContractResult Unit := Outcome.assert (info.sender = store.config.owner)

def updateConfig (relayerFeeToken : Option AssetInfo)
    (tokenFeeReceiver relayerFeeReceiver : Option Addr) (relayerFee : Option Nat)
    (swapRouterContract : Option Addr) (tokenFee : Option Ratio)
    (tokenFactoryAddr owner : Option Addr) : ContractResult Response := do
  assertOwner store info
  let config := store.config
  let config := { config with
    relayerFeeToken := relayerFeeToken.getD config.relayerFeeToken
    tokenFeeReceiver := tokenFeeReceiver.getD config.tokenFeeReceiver
    relayerFeeReceiver := relayerFeeReceiver.getD config.relayerFeeReceiver
    relayerFee := relayerFee.getD config.relayerFee
    swapRouterContract := swapRouterContract <|> config.swapRouterContract
    tokenFactoryAddr := tokenFactoryAddr.getD config.tokenFactoryAddr
    owner := owner.getD config.owner }
  return ({ store with config, tokenFeeRatio := tokenFee <|> store.tokenFeeRatio }, [])

def updateCheckpointConfig (config : CheckpointConfig) : ContractResult Response := do
  assertOwner store info
  return ({ store with checkpointConfig := config }, [])

def updateBitcoinConfig (config : BitcoinConfig) : ContractResult Response := do
  assertOwner store info
  return ({ store with bitcoinConfig := config }, [])

def updateHeaderConfig (host : Host) (config : HeaderConfig) : ContractResult Response := do
  assertOwner store info
  return ({ store with headers := HeaderQueue.configure host config }, [])

def relayHeaders (host : Host) (headers : List WrappedHeader) : ContractResult Response := do
  let headers ← HeaderQueue.add host store.headers headers
  return ({ store with headers }, [])

/-- Add a withdrawal for each of the funds in the bridged coin. -/
def addWithdrawals (host : Host) (scriptPubkey : Script) (denom : String) (store : Store)
    (funds : List Coin) (deque : DequeSet := .element) : ContractResult Store :=
  match funds with
  | [] => .ok store
  | fund :: funds =>
      if fund.denom = denom then do
        let store ← store.addWithdrawal host scriptPubkey fund.amount deque
        addWithdrawals host scriptPubkey denom store funds deque
      else addWithdrawals host scriptPubkey denom store funds deque

/-- The output script of an address. -/
def addressScript (host : Host) (btcAddress : String) : ContractResult Script :=
  match host.addressScript btcAddress with
  | .ok scriptPubkey => .ok scriptPubkey
  | .error error => Outcome.fail (.app error)

def withdrawToBitcoin (host : Host) (env : Env) (btcAddress : String)
    (deque : DequeSet := .element) : ContractResult Response := do
  let denom := getFullBtcDenom store.config.tokenFactoryAddr
  let scriptPubkey ← addressScript host btcAddress
  let after ← addWithdrawals host scriptPubkey denom store info.funds deque
  let burns := (info.funds.filter fun fund => fund.denom = denom).map fun fund =>
    CosmosMsg.burnTokens store.config.tokenFactoryAddr fund.denom fund.amount env.contractAddress
  return (after, burns)

def submitCheckpointSignature (host : Host) (xpub : Xpub) (sigs : List Signature)
    (cpIndex btcHeight : Nat) (deque : DequeSet := .element) : ContractResult Response := do
  let queue ← store.queue.sign host xpub sigs cpIndex btcHeight deque
  return ({ store with queue }, [])

def submitRecoverySignature (host : Host) (xpub : Xpub) (sigs : List Signature) :
    ContractResult Response := do
  let recoveryTxs ← RecoveryTxs.sign host store.recoveryTxs xpub sigs
  return ({ store with recoveryTxs }, [])

def saveValidator (store : Store) (entry : Addr × Nat × ConsensusKey) : Store :=
  let (addr, power, consKey) := entry
  { store with
    signers := store.signers.save addr consKey
    validators := store.validators.save consKey (power, addr) }

def addValidators (addrs : List Addr) (votingPowers : List Nat)
    (consensusKeys : List ConsensusKey) : ContractResult Response := do
  assertOwner store info
  Outcome.assert (addrs.length = votingPowers.length)
  Outcome.assert (addrs.length = consensusKeys.length)
  return ((addrs.zip (votingPowers.zip consensusKeys)).foldl saveValidator store, [])

def registerDenom (subdenom : String) (metadata : Option String) : ContractResult Response := do
  assertOwner store info
  return (store, [.createDenom store.config.tokenFactoryAddr subdenom metadata info.funds])

def changeBtcDenomOwner (newOwner : Addr) : ContractResult Response := do
  assertOwner store info
  let factory := store.config.tokenFactoryAddr
  return (store, [.changeDenomOwner factory (getFullBtcDenom factory) newOwner info.funds])

end Execute

section ClockEndBlock

variable (host : Host) (querier : Querier) (env : Env)

/-- The messages that credit one pending transfer after its fees. -/
def payoutMsgs (store : Store) (dest : Dest) (coin : Coin) : ContractResult (List CosmosMsg) := do
  let config := store.config
  let feeData ← processDeductFee host querier store coin
  let mint (fee : Coin) (receiver : Addr) : List CosmosMsg :=
    if 0 < fee.amount then
      [.mintTokens config.tokenFactoryAddr coin.denom fee.amount receiver]
    else []
  return dest.buildCosmosMsg host env ⟨coin.denom, feeData.deductedAmount⟩ env.contractAddress
      config.tokenFactoryAddr config.osorEntryPointContract ++
    mint feeData.relayerFee config.relayerFeeReceiver ++
    mint feeData.tokenFee config.tokenFeeReceiver

def punishAll (store : Store) : List ConsensusKey → ContractResult Store
  | [] => .ok store
  | consKey :: rest => do
      let (_, address) ← Outcome.getOr (Outcome.fail (.std "validator not found"))
        (store.validators.load consKey)
      punishAll (store.punishValidator consKey address) rest

/-- Pay out what is complete, advance the checkpoints and punish offline
signers. -/
def clockEndBlock (store : Store) (hash : Bytes) (deque : DequeSet := .element) :
    ContractResult Response := do
  Outcome.require (hash ∉ store.blockHashes) (.app "Blockhash already exists")
  let (queue, pendingNbtcTransfers) ← store.queue.takePendingCompleted deque
  let store := { store with queue }
  let msgs ← pendingNbtcTransfers.flatten.mapM fun pending =>
    payoutMsgs host querier env store pending.1 pending.2
  let (store, offlineSigners) ← store.beginBlockStep host env hash deque
  let store ← punishAll store offlineSigners
  return ({ store with blockHashes := hash :: store.blockHashes }, msgs.flatten)

end ClockEndBlock

def execute (host : Host) (querier : Querier) (env : Env) (info : MessageInfo) (store : Store)
    (msg : ExecuteMsg) (deque : DequeSet := .element) : ContractResult Response :=
  match msg with
  | .updateConfig relayerFeeToken tokenFeeReceiver relayerFeeReceiver relayerFee
      swapRouterContract tokenFee tokenFactoryAddr owner =>
      updateConfig store info relayerFeeToken tokenFeeReceiver relayerFeeReceiver relayerFee
        swapRouterContract tokenFee tokenFactoryAddr owner
  | .relayDeposit btcTx btcHeight btcProof btcVout sigsetIndex dest => do
      let store ← store.relayDeposit host env btcTx btcHeight btcProof btcVout sigsetIndex dest
        deque
      return (store, [])
  | .relayCheckpoint btcHeight btcProof cpIndex => do
      let store ← store.relayCheckpoint host btcHeight btcProof cpIndex
      return (store, [])
  | .withdrawToBitcoin btcAddress => withdrawToBitcoin store info host env btcAddress deque
  | .relayHeaders headers => relayHeaders store host headers
  | .updateHeaderConfig config => updateHeaderConfig store info host config
  | .updateBitcoinConfig config => updateBitcoinConfig store info config
  | .updateCheckpointConfig config => updateCheckpointConfig store info config
  | .submitCheckpointSignature xpub sigs checkpointIndex btcHeight =>
      submitCheckpointSignature store host xpub sigs checkpointIndex btcHeight deque
  | .submitRecoverySignature xpub sigs => submitRecoverySignature store host xpub sigs
  | .setSignatoryKey xpub => do
      let store ← store.setSignatoryKey host info.sender xpub
      return (store, [])
  | .addValidators addrs votingPowers consensusKeys =>
      addValidators store info addrs votingPowers consensusKeys
  | .registerDenom subdenom metadata => registerDenom store info subdenom metadata
  | .changeBtcDenomOwner newOwner => changeBtcDenomOwner store info newOwner
  | .triggerBeginBlock hash => clockEndBlock host querier env store hash deque

/-- A call of the contract, with the state of the other contracts it queries. -/
inductive Call where
  | execute (querier : Querier) (env : Env) (info : MessageInfo) (msg : ExecuteMsg)
  | clockEndBlock (querier : Querier) (env : Env) (hash : Bytes)

def call (host : Host) (store : Store) (call : Call) (deque : DequeSet := .element) :
    ContractResult Response :=
  match call with
  | .execute querier env info msg => execute host querier env info store msg deque
  | .clockEndBlock querier env hash => clockEndBlock host querier env store hash deque

/-- The contract under its calls. -/
def machine (host : Host) (deque : DequeSet := .element) : CallMachine Store Call ContractError where
  call store msg := Prod.fst <$> call host store msg deque

end Contract

namespace Sample

/-! A bridge with one validator, and the calls that take a deposit and freeze
the checkpoint it is in. -/

def info : MessageInfo := { sender := "owner", funds := [] }

def env (seconds : Nat) : Env :=
  { blockTimeNanos := seconds * 1000000000, contractAddress := "bridge" }

def executeAt (seconds : Nat) (msg : ExecuteMsg) : Contract.Call :=
  .execute querier (env seconds) info msg

def instantiateMsg : InstantiateMsg where
  tokenFactoryAddr := "factory"
  relayerFeeReceiver := "relayer"
  tokenFeeReceiver := "treasury"
  relayerFeeToken := .nativeToken "orai"
  relayerFee := 0
  swapRouterContract := none
  osorEntryPointContract := none

/-- A queue of headers that starts with a block of one transaction. -/
def blockOf (txid : Bytes) : HeaderConfig :=
  { HeaderConfig.mainnet with
    trustedHeight := 7
    trustedHeader :=
      { version := 1, prevBlockhash := [], merkleRoot := txid, time := 0, bits := 1000, nonce := 0 } }

def proofOf (txid : Bytes) : PartialMerkleTree :=
  { numTransactions := 1, bits := [true], hashes := [txid] }

/-- The signatory set of the first checkpoint. -/
def firstSigset : SignatorySet where
  createTime := 1000
  presentVp := 100
  possibleVp := 100
  index := 0
  signatories := [⟨100, pubkey 1⟩]

/-- A transaction that pays to a destination through the first checkpoint. -/
def depositTo (value : Nat) (dest : Bytes) : Transaction where
  version := 1
  lockTime := 0
  input := []
  output :=
    match firstSigset.outputScript host dest SIGSET_THRESHOLD with
    | .ok scriptPubkey => [⟨value, scriptPubkey⟩]
    | .error _ => []

def depositTx : Transaction := depositTo 100000 (utf8 "a")

def largeDepositTx : Transaction := depositTo 10000000 (utf8 "a")

def relayDepositAt (seconds height : Nat) (tx : Transaction) (addr : Addr) : Contract.Call :=
  executeAt seconds (.relayDeposit tx height (proofOf (tx.txid host)) 0 0 (.address addr))

def setupCalls : List Contract.Call := [
  executeAt 0 (.updateHeaderConfig (blockOf (depositTx.txid host))),
  executeAt 0 (.updateBitcoinConfig { BitcoinConfig.default with minConfirmations := 0 }),
  executeAt 0 (.addValidators [info.sender] [100] [consensusKey 1]),
  executeAt 0 (.setSignatoryKey (xpub 1)),
  .clockEndBlock querier (env 1000) [1],
  relayDepositAt 1010 7 depositTx "a",
  .clockEndBlock querier (env 1400) [2]]

/-- The calls before the first checkpoint, with a header for a transaction. -/
def openingCalls (tx : Transaction) : List Contract.Call := [
  executeAt 0 (.updateHeaderConfig (blockOf (tx.txid host))),
  executeAt 0 (.updateBitcoinConfig { BitcoinConfig.default with minConfirmations := 0 }),
  executeAt 0 (.addValidators [info.sender] [100] [consensusKey 1]),
  executeAt 0 (.setSignatoryKey (xpub 1))]

def signFirst : Contract.Call :=
  executeAt 1410 (.submitCheckpointSignature (xpub 1) [⟨(pubkey 1).bytes⟩] 0 7)

def initial : Store := Contract.instantiate host info instantiateMsg

/-- The checkpoint with the given index. -/
def checkpointAt (store : Store) (index : Nat) : Checkpoint :=
  match store.queue.get index with
  | .ok checkpoint => checkpoint
  | .error _ => Checkpoint.new firstSigset

end Sample

end CwBitcoin
