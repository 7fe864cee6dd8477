import CwBitcoin.Minting
import CwBitcoin.ReserveConservation

/-!
# What a call does to the funds

The funds of the bridge are its checkpoints, its fee pool and the rate between
satoshis and units of the bridged coin.  Every successful call moves them in
one of a few ways, together with the messages that it emits, and most calls
neither touch them nor mint or burn.
-/

namespace CwBitcoin

/-- The amount that a message burns. -/
def CosmosMsg.burned : CosmosMsg → Nat
  | .burnTokens _ _ amount _ => amount
  | _ => 0

def burnedTotal (msgs : List CosmosMsg) : Nat := (msgs.map CosmosMsg.burned).sum

@[simp]
theorem burnedTotal_nil : burnedTotal [] = 0 := rfl

@[simp]
theorem burnedTotal_append (first second : List CosmosMsg) :
    burnedTotal (first ++ second) = burnedTotal first + burnedTotal second := by
  simp [burnedTotal]

/-- The call leaves the funds alone. -/
structure Store.SameFunds (store after : Store) : Prop where
  queue_eq : after.queue = store.queue
  feePool_eq : after.feePool = store.feePool
  bitcoinConfig_eq : after.bitcoinConfig = store.bitcoinConfig

namespace Store.SameFunds

variable {store middle after : Store}

theorem refl (store : Store) : SameFunds store store := ⟨rfl, rfl, rfl⟩

theorem trans (first : SameFunds store middle) (second : SameFunds middle after) :
    SameFunds store after :=
  ⟨second.queue_eq.trans first.queue_eq, second.feePool_eq.trans first.feePool_eq,
    second.bitcoinConfig_eq.trans first.bitcoinConfig_eq⟩

theorem surplus_eq (same : SameFunds store after) : after.surplus = store.surplus := by
  rw [surplus, surplus, same.queue_eq, same.feePool_eq, same.bitcoinConfig_eq]

end Store.SameFunds

theorem Store.SameOutsideRegistry.sameFunds {store after : Store}
    (same : SameOutsideRegistry store after) : store.SameFunds after :=
  ⟨by rw [same.after_eq], by rw [same.after_eq], by rw [same.after_eq]⟩

namespace Contract

/-- The bridge config that a call sets. -/
def Call.bitcoinConfig : Call → Option BitcoinConfig
  | .execute _ _ _ (.updateBitcoinConfig config) => some config
  | _ => none

theorem mintedTotal_burnMsgs (factory denom : String) (funds : List Coin) (contract : Addr) :
    mintedTotal (burnMsgs factory denom funds contract) = 0 := by
  rw [mintedTotal, burnMsgs, List.map_map, List.sum_eq_zero]
  rintro _ member
  obtain ⟨fund, -, rfl⟩ := List.mem_map.mp member
  rfl

/-- The ways in which a successful call moves the funds. -/
inductive FundsEffect (host : Host) (store : Store) : Call → Response → Prop
  | deposit {after : Store} (querier : Querier) (env : Env) (info : MessageInfo)
      (btcTx : Transaction) (btcHeight : Nat) (btcProof : PartialMerkleTree)
      (btcVout sigsetIndex : Nat) (dest : Dest)
      (relayed : store.relayDeposit host env btcTx btcHeight btcProof btcVout sigsetIndex dest =
        .ok after) :
      FundsEffect host store (.execute querier env info
        (.relayDeposit btcTx btcHeight btcProof btcVout sigsetIndex dest)) (after, [])
  | withdrawal {after : Store} (querier : Querier) (env : Env) (info : MessageInfo)
      (btcAddress : String) (scriptPubkey : Script) (denom : String)
      (scripted : addressScript host btcAddress = .ok scriptPubkey)
      (added : addWithdrawals host scriptPubkey denom store info.funds = .ok after) :
      FundsEffect host store (.execute querier env info (.withdrawToBitcoin btcAddress))
        (after, burnMsgs store.config.tokenFactoryAddr denom info.funds env.contractAddress)
  | signature {call : Call} {queue : QueueStore} (noHash : call.blockHash = none) (xpub : Xpub)
      (sigs : List Signature) (cpIndex btcHeight : Nat)
      (signed : store.queue.sign host xpub sigs cpIndex btcHeight = .ok queue) :
      FundsEffect host store call ({ store with queue }, [])
  | confirmation {call : Call} {after : Store} (noHash : call.blockHash = none) (btcHeight : Nat)
      (btcProof : PartialMerkleTree) (cpIndex : Nat)
      (relayed : store.relayCheckpoint host btcHeight btcProof cpIndex = .ok after) :
      FundsEffect host store call (after, [])
  | rate {call : Call} (config : BitcoinConfig) (noHash : call.blockHash = none)
      (isConfig : call.bitcoinConfig = some config) :
      FundsEffect host store call ({ store with bitcoinConfig := config }, [])
  | endBlock {call : Call} {response : Response} (hash : Bytes) (isClock : call.blockHash = some hash)
      (clocked : clockEndBlock host call.querier call.env store hash = .ok response) :
      FundsEffect host store call response
  | other {call : Call} {response : Response} (noHash : call.blockHash = none)
      (same : store.SameFunds response.1) (minted : mintedTotal response.2 = 0)
      (burned : burnedTotal response.2 = 0) : FundsEffect host store call response

/-- Every successful call moves the funds in one of these ways. -/
theorem fundsEffect_of_call {host : Host} {store : Store} {called : Call} {response : Response}
    (ok : call host store called = .ok response) : FundsEffect host store called response := by
  cases executed_of_call ok with
  | relayDeposit querier env info btcTx btcHeight btcProof btcVout sigsetIndex dest relayed =>
      exact .deposit querier env info btcTx btcHeight btcProof btcVout sigsetIndex dest relayed
  | withdrawToBitcoin querier env info btcAddress scriptPubkey scripted added =>
      exact .withdrawal querier env info btcAddress scriptPubkey _ scripted added
  | submitCheckpointSignature _ _ _ xpub sigs cpIndex btcHeight signed =>
      exact .signature rfl xpub sigs cpIndex btcHeight signed
  | relayCheckpoint _ _ _ btcHeight btcProof cpIndex relayed =>
      exact .confirmation rfl btcHeight btcProof cpIndex relayed
  | updateBitcoinConfig _ _ _ config => exact .rate config rfl rfl
  | triggerBeginBlock _ _ _ hash clocked | clockEndBlock _ _ hash clocked =>
      exact .endBlock hash rfl clocked
  | addValidators => exact .other rfl (outsideRegistry_saveValidators _).sameFunds rfl rfl
  | setSignatoryKey _ _ _ _ saved =>
      exact .other rfl (outsideRegistry_setSignatoryKey saved).sameFunds rfl rfl
  | updateConfig | updateCheckpointConfig | updateHeaderConfig | relayHeaders
  | submitRecoverySignature | registerDenom | changeBtcDenomOwner =>
      exact .other rfl ⟨rfl, rfl, rfl⟩ rfl rfl

end Contract

end CwBitcoin
