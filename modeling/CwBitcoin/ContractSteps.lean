import CwBitcoin.Contract
import CwBitcoin.Rollover

/-!
# What a call of the contract does to the bridge

Every successful call is one of a few effects on the checkpoint queue and the
processed outpoints, and most calls leave both alone.
-/

namespace CwBitcoin

/-- The call leaves the checkpoints and the processed outpoints alone. -/
structure Store.SameBridge (store after : Store) : Prop where
  queue_eq : after.queue = store.queue
  outpoints_eq : after.outpoints = store.outpoints
  checkpointConfig_eq : after.checkpointConfig = store.checkpointConfig

namespace Store.SameBridge

variable {store middle after : Store}

theorem refl (store : Store) : SameBridge store store := ⟨rfl, rfl, rfl⟩

theorem trans (first : SameBridge store middle) (second : SameBridge middle after) :
    SameBridge store after :=
  ⟨second.queue_eq.trans first.queue_eq, second.outpoints_eq.trans first.outpoints_eq,
    second.checkpointConfig_eq.trans first.checkpointConfig_eq⟩

end Store.SameBridge

/-- Nothing changes but the registry of validators and the keys of signatories. -/
structure Store.SameOutsideRegistry (store after : Store) : Prop where
  after_eq : after = { store with
    validators := after.validators
    signers := after.signers
    sigKeys := after.sigKeys
    xpubs := after.xpubs }

namespace Store.SameOutsideRegistry

variable {store middle after : Store}

theorem refl (store : Store) : SameOutsideRegistry store store := ⟨rfl⟩

theorem trans (first : SameOutsideRegistry store middle)
    (second : SameOutsideRegistry middle after) : SameOutsideRegistry store after := by
  have afterEq := second.after_eq
  rw [first.after_eq] at afterEq
  exact ⟨afterEq⟩

theorem sameBridge (same : SameOutsideRegistry store after) : store.SameBridge after :=
  ⟨by rw [same.after_eq], by rw [same.after_eq], by rw [same.after_eq]⟩

end Store.SameOutsideRegistry

namespace Contract

/-- The block hash of a call at the end of a block. -/
def Call.blockHash : Call → Option Bytes
  | .execute _ _ _ (.triggerBeginBlock hash) => some hash
  | .clockEndBlock _ _ hash => some hash
  | _ => none

/-- What a call that relays a deposit says about it. -/
structure RelayedDeposit where
  btcTx : Transaction
  btcVout : Nat
  sigsetIndex : Nat
  dest : Dest

def Call.deposit : Call → Option RelayedDeposit
  | .execute _ _ _ (.relayDeposit btcTx _ _ btcVout sigsetIndex dest) =>
      some { btcTx, btcVout, sigsetIndex, dest }
  | _ => none

/-- What a call that signs a checkpoint says about it. -/
structure CheckpointSignature where
  xpub : Xpub
  sigs : List Signature
  cpIndex : Nat
  btcHeight : Nat

def Call.signature : Call → Option CheckpointSignature
  | .execute _ _ _ (.submitCheckpointSignature xpub sigs cpIndex btcHeight) =>
      some { xpub, sigs, cpIndex, btcHeight }
  | _ => none

/-- The checkpoint that a call proves to be confirmed. -/
def Call.confirmation : Call → Option Nat
  | .execute _ _ _ (.relayCheckpoint _ _ cpIndex) => some cpIndex
  | _ => none

def Call.env : Call → Env
  | .execute _ env _ _ => env
  | .clockEndBlock _ env _ => env

/-- The effects of calls. -/
inductive Effect (host : Host) (store : Store) : Call → Store → Prop
  | deposit {after : Store} (querier : Querier) (env : Env) (info : MessageInfo)
      (btcTx : Transaction) (btcHeight : Nat) (btcProof : PartialMerkleTree)
      (btcVout sigsetIndex : Nat) (dest : Dest)
      (relayed : store.relayDeposit host env btcTx btcHeight btcProof btcVout sigsetIndex dest =
        .ok after) :
      Effect host store (.execute querier env info
        (.relayDeposit btcTx btcHeight btcProof btcVout sigsetIndex dest)) after
  | withdrawal {call : Call} {after : Store} (noHash : call.blockHash = none)
      (noDeposit : call.deposit = none) (scriptPubkey : Script) (denom : String)
      (funds : List Coin)
      (added : addWithdrawals host scriptPubkey denom store funds = .ok after) :
      Effect host store call after
  | signature {call : Call} {queue : QueueStore} (noHash : call.blockHash = none)
      (noDeposit : call.deposit = none) (xpub : Xpub) (sigs : List Signature)
      (cpIndex btcHeight : Nat)
      (signed : store.queue.sign host xpub sigs cpIndex btcHeight = .ok queue)
      (isSignature : call.signature = some { xpub, sigs, cpIndex, btcHeight }) :
      Effect host store call { store with queue }
  | confirmation {call : Call} {after : Store} (noHash : call.blockHash = none)
      (noDeposit : call.deposit = none) (btcHeight : Nat) (btcProof : PartialMerkleTree)
      (cpIndex : Nat) (relayed : store.relayCheckpoint host btcHeight btcProof cpIndex = .ok after)
      (isConfirmation : call.confirmation = some cpIndex) :
      Effect host store call after
  | configuration (querier : Querier) (env : Env) (info : MessageInfo) (config : CheckpointConfig) :
      Effect host store (.execute querier env info (.updateCheckpointConfig config))
        { store with checkpointConfig := config }
  | endBlock {call : Call} {hash : Bytes} {queue : QueueStore} {stepped after : Store}
      (isClock : call.blockHash = some hash) (noDeposit : call.deposit = none)
      (env : Env) (dests : Payouts)
      (taken : store.queue.takePendingCompleted = .ok (queue, dests))
      (btcHeight : Nat) (shouldAllowDeposits pushed : Bool)
      (steppedOk : Store.maybeStep host env { store with queue } btcHeight shouldAllowDeposits hash
        store.bitcoinConfig = .ok (stepped, pushed))
      (same : stepped.SameBridge after) (isEnv : call.env = env)
      (isHeight : btcHeight = HeaderQueue.height store.headers) : Effect host store call after
  | other {call : Call} {after : Store} (noHash : call.blockHash = none)
      (noDeposit : call.deposit = none) (same : store.SameBridge after) :
      Effect host store call after

section Frames

variable {store after : Store}

theorem outsideRegistry_punishValidator (consKey : ConsensusKey) (addr : Addr) :
    store.SameOutsideRegistry (store.punishValidator consKey addr) := by
  rw [Store.punishValidator, Store.removeSignatoryKey]
  split <;> exact ⟨rfl⟩

theorem outsideRegistry_punishAll {keys : List ConsensusKey}
    (punished : punishAll store keys = .ok after) : store.SameOutsideRegistry after := by
  induction keys generalizing store with
  | nil =>
      obtain rfl := Except.ok.inj punished
      exact .refl store
  | cons key rest ih =>
      simp only [punishAll, Outcome.bind_eq_ok] at punished
      obtain ⟨⟨power, address⟩, -, punished⟩ := punished
      exact (outsideRegistry_punishValidator key address).trans (ih punished)

theorem outsideRegistry_saveValidators (entries : List (Addr × Nat × ConsensusKey)) :
    store.SameOutsideRegistry (entries.foldl saveValidator store) := by
  induction entries generalizing store with
  | nil => exact .refl store
  | cons entry rest ih =>
      have one : store.SameOutsideRegistry (saveValidator store entry) := ⟨rfl⟩
      exact one.trans ih

end Frames

/-- What every withdrawal preserves is preserved by a list of them. -/
theorem addWithdrawals_invariant {host : Host} {scriptPubkey : Script} {denom : String}
    {deque : DequeSet} (Inv : Store → Prop)
    (preserve : ∀ store amount after, Inv store →
      store.addWithdrawal host scriptPubkey amount deque = .ok after → Inv after)
    {funds : List Coin} {store after : Store} (holds : Inv store)
    (added : addWithdrawals host scriptPubkey denom store funds deque = .ok after) : Inv after := by
  induction funds generalizing store with
  | nil =>
      obtain rfl := Except.ok.inj added
      exact holds
  | cons fund funds ih =>
      simp only [addWithdrawals] at added
      split at added
      · simp only [Outcome.bind_eq_ok] at added
        obtain ⟨middle, addedOne, addedRest⟩ := added
        exact ih (preserve store fund.amount middle holds addedOne) addedRest
      · exact ih holds added

/-- Validators are added one entry after the other. -/
theorem addValidators_eq_ok {store : Store} {info : MessageInfo} {addrs : List Addr}
    {votingPowers : List Nat} {consensusKeys : List ConsensusKey} {response : Response}
    (added : addValidators store info addrs votingPowers consensusKeys = .ok response) :
    response = ((addrs.zip (votingPowers.zip consensusKeys)).foldl saveValidator store, []) := by
  simp only [addValidators, Outcome.bind_eq_ok, Outcome.pure_eq_ok] at added
  obtain ⟨-, -, -, -, -, -, responseEq⟩ := added
  exact responseEq.symm

/-- The block step changes the store by `maybeStep` alone. -/
theorem maybeStep_of_beginBlockStep {host : Host} {env : Env} {store begun : Store}
    {commitment : Bytes} {offline : List ConsensusKey} {deque : DequeSet}
    (begunOk : store.beginBlockStep host env commitment deque = .ok (begun, offline)) :
    ∃ shouldAllowDeposits pushed,
      store.maybeStep host env (HeaderQueue.height store.headers) shouldAllowDeposits commitment
        store.bitcoinConfig deque = .ok (begun, pushed) := by
  simp only [Store.beginBlockStep, Outcome.bind_eq_ok] at begunOk
  obtain ⟨hasCompleted, -, reachedLimit, -, ⟨stepped, pushed⟩, steppedOk, begunOk⟩ := begunOk
  have steppedEq : stepped = begun := by
    split at begunOk
    · simp only [Outcome.bind_eq_ok, Outcome.pure_eq_ok, Prod.mk.injEq] at begunOk
      obtain ⟨-, -, rfl, -⟩ := begunOk
      rfl
    · simp only [Outcome.pure_eq_ok, Prod.mk.injEq] at begunOk
      exact begunOk.1
  rw [← steppedEq]
  exact ⟨_, pushed, steppedOk⟩

/-- The end of a block hands out what is pending, makes the block step, and punishes the
offline signers. -/
theorem clockEndBlock_eq_ok {host : Host} {querier : Querier} {env : Env} {store : Store}
    {hash : Bytes} {response : Response} {deque : DequeSet}
    (called : clockEndBlock host querier env store hash deque = .ok response) :
    ∃ queue dests emitted begun offline punished,
      store.queue.takePendingCompleted deque = .ok (queue, dests) ∧
      dests.flatten.mapM (fun pending =>
        payoutMsgs host querier env { store with queue } pending.1 pending.2) = .ok emitted ∧
      Store.beginBlockStep host env { store with queue } hash deque = .ok (begun, offline) ∧
      punishAll begun offline = .ok punished ∧
      response = ({ punished with blockHashes := hash :: punished.blockHashes },
        emitted.flatten) := by
  simp only [clockEndBlock, Outcome.bind_eq_ok, Outcome.pure_eq_ok] at called
  obtain ⟨-, -, ⟨queue, dests⟩, taken, emitted, paid, ⟨begun, offline⟩, begunOk, punished,
    punishedOk, responseEq⟩ := called
  exact ⟨queue, dests, emitted, begun, offline, punished, taken, paid, begunOk, punishedOk,
    responseEq.symm⟩

theorem exists_maybeStep_of_clockEndBlock {host : Host} {querier : Querier} {env : Env}
    {store : Store} {hash : Bytes} {response : Response} {deque : DequeSet}
    (called : clockEndBlock host querier env store hash deque = .ok response) :
    ∃ queue dests shouldAllowDeposits stepped pushed,
      store.queue.takePendingCompleted deque = .ok (queue, dests) ∧
      Store.maybeStep host env { store with queue } (HeaderQueue.height store.headers)
        shouldAllowDeposits hash store.bitcoinConfig deque = .ok (stepped, pushed) ∧
      stepped.SameBridge response.1 := by
  obtain ⟨queue, dests, -, begun, offline, punished, taken, -, begunOk, punishedOk, rfl⟩ :=
    clockEndBlock_eq_ok called
  obtain ⟨allow, pushed, steppedOk⟩ := maybeStep_of_beginBlockStep begunOk
  have same : begun.SameBridge { punished with blockHashes := hash :: punished.blockHashes } :=
    (outsideRegistry_punishAll punishedOk).sameBridge.trans ⟨rfl, rfl, rfl⟩
  exact ⟨queue, dests, allow, begun, pushed, taken, steppedOk, same⟩

theorem effect_of_clockEndBlock {host : Host} {querier : Querier} {env : Env} {store : Store}
    {hash : Bytes} {response : Response} {call : Call}
    (called : clockEndBlock host querier env store hash = .ok response)
    (isClock : call.blockHash = some hash) (noDeposit : call.deposit = none)
    (isEnv : call.env = env) : Effect host store call response.1 := by
  obtain ⟨queue, dests, allow, stepped, pushed, taken, steppedOk, same⟩ :=
    exists_maybeStep_of_clockEndBlock called
  exact .endBlock isClock noDeposit env dests taken _ allow pushed steppedOk same isEnv rfl

/-- The burn messages of a withdrawal. -/
def burnMsgs (factory denom : String) (funds : List Coin) (contract : Addr) : List CosmosMsg :=
  (funds.filter fun fund => fund.denom = denom).map fun fund =>
    .burnTokens factory fund.denom fund.amount contract

/-- What each entry point does when it succeeds, and its response. -/
inductive Executed (host : Host) (deque : DequeSet) (store : Store) :
    Call → Response → Prop
  | updateConfig (querier : Querier) (env : Env) (info : MessageInfo)
      (relayerFeeToken : Option AssetInfo) (tokenFeeReceiver relayerFeeReceiver : Option Addr)
      (relayerFee : Option Nat) (swapRouterContract : Option Addr) (tokenFee : Option Ratio)
      (tokenFactoryAddr owner : Option Addr) (config : Config) (tokenFeeRatio : Option Ratio) :
      Executed host deque store (.execute querier env info (.updateConfig relayerFeeToken
        tokenFeeReceiver relayerFeeReceiver relayerFee swapRouterContract tokenFee
        tokenFactoryAddr owner)) ({ store with config, tokenFeeRatio }, [])
  | relayDeposit {after : Store} (querier : Querier) (env : Env) (info : MessageInfo)
      (btcTx : Transaction) (btcHeight : Nat) (btcProof : PartialMerkleTree)
      (btcVout sigsetIndex : Nat) (dest : Dest)
      (relayed : store.relayDeposit host env btcTx btcHeight btcProof btcVout sigsetIndex dest
        deque = .ok after) :
      Executed host deque store (.execute querier env info
        (.relayDeposit btcTx btcHeight btcProof btcVout sigsetIndex dest)) (after, [])
  | relayCheckpoint {after : Store} (querier : Querier) (env : Env) (info : MessageInfo)
      (btcHeight : Nat) (btcProof : PartialMerkleTree) (cpIndex : Nat)
      (relayed : store.relayCheckpoint host btcHeight btcProof cpIndex = .ok after) :
      Executed host deque store
        (.execute querier env info (.relayCheckpoint btcHeight btcProof cpIndex)) (after, [])
  | withdrawToBitcoin {after : Store} (querier : Querier) (env : Env) (info : MessageInfo)
      (btcAddress : String) (scriptPubkey : Script)
      (scripted : addressScript host btcAddress = .ok scriptPubkey)
      (added : addWithdrawals host scriptPubkey (getFullBtcDenom store.config.tokenFactoryAddr)
        store info.funds deque = .ok after) :
      Executed host deque store (.execute querier env info (.withdrawToBitcoin btcAddress))
        (after, burnMsgs store.config.tokenFactoryAddr
          (getFullBtcDenom store.config.tokenFactoryAddr) info.funds env.contractAddress)
  | relayHeaders (querier : Querier) (env : Env) (info : MessageInfo)
      (relayed : List WrappedHeader) (headers : HeaderStore) :
      Executed host deque store (.execute querier env info (.relayHeaders relayed))
        ({ store with headers }, [])
  | updateHeaderConfig (querier : Querier) (env : Env) (info : MessageInfo) (config : HeaderConfig) :
      Executed host deque store (.execute querier env info (.updateHeaderConfig config))
        ({ store with headers := HeaderQueue.configure host config }, [])
  | updateBitcoinConfig (querier : Querier) (env : Env) (info : MessageInfo)
      (config : BitcoinConfig) :
      Executed host deque store (.execute querier env info (.updateBitcoinConfig config))
        ({ store with bitcoinConfig := config }, [])
  | updateCheckpointConfig (querier : Querier) (env : Env) (info : MessageInfo)
      (config : CheckpointConfig) :
      Executed host deque store (.execute querier env info (.updateCheckpointConfig config))
        ({ store with checkpointConfig := config }, [])
  | submitCheckpointSignature {queue : QueueStore} (querier : Querier) (env : Env)
      (info : MessageInfo) (xpub : Xpub) (sigs : List Signature) (cpIndex btcHeight : Nat)
      (signed : store.queue.sign host xpub sigs cpIndex btcHeight deque = .ok queue) :
      Executed host deque store (.execute querier env info
        (.submitCheckpointSignature xpub sigs cpIndex btcHeight)) ({ store with queue }, [])
  | submitRecoverySignature {recoveryTxs : List RecoveryTx} (querier : Querier) (env : Env)
      (info : MessageInfo) (xpub : Xpub) (sigs : List Signature)
      (signed : RecoveryTxs.sign host store.recoveryTxs xpub sigs = .ok recoveryTxs) :
      Executed host deque store (.execute querier env info (.submitRecoverySignature xpub sigs))
        ({ store with recoveryTxs }, [])
  | setSignatoryKey {after : Store} (querier : Querier) (env : Env) (info : MessageInfo)
      (xpub : Xpub) (saved : store.setSignatoryKey host info.sender xpub = .ok after) :
      Executed host deque store (.execute querier env info (.setSignatoryKey xpub)) (after, [])
  | addValidators (querier : Querier) (env : Env) (info : MessageInfo) (addrs : List Addr)
      (votingPowers : List Nat) (consensusKeys : List ConsensusKey) :
      Executed host deque store
        (.execute querier env info (.addValidators addrs votingPowers consensusKeys))
        ((addrs.zip (votingPowers.zip consensusKeys)).foldl saveValidator store, [])
  | registerDenom (querier : Querier) (env : Env) (info : MessageInfo) (subdenom : String)
      (metadata : Option String) :
      Executed host deque store (.execute querier env info (.registerDenom subdenom metadata))
        (store, [.createDenom store.config.tokenFactoryAddr subdenom metadata info.funds])
  | changeBtcDenomOwner (querier : Querier) (env : Env) (info : MessageInfo) (newOwner : Addr) :
      Executed host deque store (.execute querier env info (.changeBtcDenomOwner newOwner))
        (store, [.changeDenomOwner store.config.tokenFactoryAddr
          (getFullBtcDenom store.config.tokenFactoryAddr) newOwner info.funds])
  | triggerBeginBlock {response : Response} (querier : Querier) (env : Env) (info : MessageInfo)
      (hash : Bytes) (clocked : clockEndBlock host querier env store hash deque = .ok response) :
      Executed host deque store (.execute querier env info (.triggerBeginBlock hash)) response
  | clockEndBlock {response : Response} (querier : Querier) (env : Env) (hash : Bytes)
      (clocked : clockEndBlock host querier env store hash deque = .ok response) :
      Executed host deque store (.clockEndBlock querier env hash) response

/-- Every successful call is that of an entry point. -/
theorem executed_of_call {host : Host} {store : Store} {call : Call} {response : Response}
    {deque : DequeSet} (called : Contract.call host store call deque = .ok response) :
    Executed host deque store call response := by
  cases call with
  | clockEndBlock querier env hash => exact .clockEndBlock querier env hash called
  | execute querier env info msg =>
      simp only [Contract.call] at called
      cases msg with
      | updateConfig =>
          simp only [execute, Contract.updateConfig, Outcome.bind_eq_ok,
            Outcome.pure_eq_ok] at called
          obtain ⟨-, -, rfl⟩ := called
          exact .updateConfig ..
      | relayDeposit btcTx btcHeight btcProof btcVout sigsetIndex dest =>
          simp only [execute, Outcome.bind_eq_ok, Outcome.pure_eq_ok] at called
          obtain ⟨after, relayed, rfl⟩ := called
          exact .relayDeposit querier env info btcTx btcHeight btcProof btcVout sigsetIndex dest
            relayed
      | relayCheckpoint btcHeight btcProof cpIndex =>
          simp only [execute, Outcome.bind_eq_ok, Outcome.pure_eq_ok] at called
          obtain ⟨after, relayed, rfl⟩ := called
          exact .relayCheckpoint querier env info btcHeight btcProof cpIndex relayed
      | withdrawToBitcoin btcAddress =>
          simp only [execute, Contract.withdrawToBitcoin, Outcome.bind_eq_ok,
            Outcome.pure_eq_ok] at called
          obtain ⟨scriptPubkey, scripted, after, added, rfl⟩ := called
          exact .withdrawToBitcoin querier env info btcAddress scriptPubkey scripted added
      | relayHeaders headers =>
          simp only [execute, Contract.relayHeaders, Outcome.bind_eq_ok,
            Outcome.pure_eq_ok] at called
          obtain ⟨added, -, rfl⟩ := called
          exact .relayHeaders querier env info headers added
      | updateHeaderConfig config =>
          simp only [execute, Contract.updateHeaderConfig, Outcome.bind_eq_ok,
            Outcome.pure_eq_ok] at called
          obtain ⟨-, -, rfl⟩ := called
          exact .updateHeaderConfig querier env info config
      | updateBitcoinConfig config =>
          simp only [execute, Contract.updateBitcoinConfig, Outcome.bind_eq_ok,
            Outcome.pure_eq_ok] at called
          obtain ⟨-, -, rfl⟩ := called
          exact .updateBitcoinConfig querier env info config
      | updateCheckpointConfig config =>
          simp only [execute, Contract.updateCheckpointConfig, Outcome.bind_eq_ok,
            Outcome.pure_eq_ok] at called
          obtain ⟨-, -, rfl⟩ := called
          exact .updateCheckpointConfig querier env info config
      | submitCheckpointSignature xpub sigs cpIndex btcHeight =>
          simp only [execute, Contract.submitCheckpointSignature, Outcome.bind_eq_ok,
            Outcome.pure_eq_ok] at called
          obtain ⟨queue, signed, rfl⟩ := called
          exact .submitCheckpointSignature querier env info xpub sigs cpIndex btcHeight signed
      | submitRecoverySignature xpub sigs =>
          simp only [execute, Contract.submitRecoverySignature, Outcome.bind_eq_ok,
            Outcome.pure_eq_ok] at called
          obtain ⟨recoveryTxs, signed, rfl⟩ := called
          exact .submitRecoverySignature querier env info xpub sigs signed
      | setSignatoryKey xpub =>
          simp only [execute, Outcome.bind_eq_ok, Outcome.pure_eq_ok] at called
          obtain ⟨after, saved, rfl⟩ := called
          exact .setSignatoryKey querier env info xpub saved
      | addValidators addrs votingPowers consensusKeys =>
          obtain rfl := addValidators_eq_ok called
          exact .addValidators querier env info addrs votingPowers consensusKeys
      | registerDenom subdenom metadata =>
          simp only [execute, Contract.registerDenom, Outcome.bind_eq_ok,
            Outcome.pure_eq_ok] at called
          obtain ⟨-, -, rfl⟩ := called
          exact .registerDenom querier env info subdenom metadata
      | changeBtcDenomOwner newOwner =>
          simp only [execute, Contract.changeBtcDenomOwner, Outcome.bind_eq_ok,
            Outcome.pure_eq_ok] at called
          obtain ⟨-, -, rfl⟩ := called
          exact .changeBtcDenomOwner querier env info newOwner
      | triggerBeginBlock hash => exact .triggerBeginBlock querier env info hash called

/-- The same for the contract as a machine, which forgets the messages. -/
theorem executed_of_machine {host : Host} {store after : Store} {call : Call} {deque : DequeSet}
    (called : (machine host deque).call store call = .ok after) :
    ∃ response, Executed host deque store call response ∧ response.1 = after := by
  simp only [machine, Outcome.map_eq_ok] at called
  obtain ⟨response, called, rfl⟩ := called
  exact ⟨response, executed_of_call called, rfl⟩

theorem outsideRegistry_setSignatoryKey {host : Host} {store after : Store} {signer : Addr}
    {xpub : Xpub} (saved : store.setSignatoryKey host signer xpub = .ok after) :
    store.SameOutsideRegistry after := by
  simp only [Store.setSignatoryKey, Store.insertSignatoryKey, Outcome.bind_eq_ok,
    Outcome.pure_eq_ok] at saved
  obtain ⟨consensusKey, -, -, -, -, -, rfl⟩ := saved
  exact ⟨rfl⟩

/-- Every successful call has one of the effects. -/
theorem effect_of_call {host : Host} {store after : Store} {call : Call}
    (called : (machine host).call store call = .ok after) : Effect host store call after := by
  obtain ⟨response, executed, rfl⟩ := executed_of_machine called
  cases executed with
  | relayDeposit querier env info btcTx btcHeight btcProof btcVout sigsetIndex dest relayed =>
      exact .deposit querier env info btcTx btcHeight btcProof btcVout sigsetIndex dest relayed
  | relayCheckpoint _ _ _ btcHeight btcProof cpIndex relayed =>
      exact .confirmation rfl rfl btcHeight btcProof cpIndex relayed rfl
  | withdrawToBitcoin _ _ info _ scriptPubkey _ added =>
      exact .withdrawal rfl rfl scriptPubkey _ info.funds added
  | submitCheckpointSignature _ _ _ xpub sigs cpIndex btcHeight signed =>
      exact .signature rfl rfl xpub sigs cpIndex btcHeight signed rfl
  | updateCheckpointConfig querier env info config => exact .configuration querier env info config
  | triggerBeginBlock _ _ _ _ clocked | clockEndBlock _ _ _ clocked =>
      exact effect_of_clockEndBlock clocked rfl rfl rfl
  | addValidators => exact .other rfl rfl (outsideRegistry_saveValidators _).sameBridge
  | setSignatoryKey _ _ _ _ saved =>
      exact .other rfl rfl (outsideRegistry_setSignatoryKey saved).sameBridge
  | updateConfig | updateBitcoinConfig | updateHeaderConfig | relayHeaders
  | submitRecoverySignature | registerDenom | changeBtcDenomOwner =>
      exact .other rfl rfl ⟨rfl, rfl, rfl⟩

end Contract

end CwBitcoin
