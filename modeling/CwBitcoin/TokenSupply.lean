import CwBitcoin.FundsEffects
import Mathlib.Tactic.Linarith

/-!
# The supply of the bridged coin

What the messages of a run have minted and not burned again is covered by the
reserve, together with the pending transfers and the fee pool.  Conversions
between integer types that overflow only favour the reserve, except for the
miner fee of a checkpoint.
-/

namespace CwBitcoin

theorem asI64_le (value : Nat) : asI64 value ≤ value := by
  rw [asI64, BitVec.toInt_eq_toNat_bmod, BitVec.toNat_ofNat, Int.bmod_def]
  omega

namespace Store

variable {host : Host} {env : Env} {store after : Store}

/-- A deposit covers its pending transfer and its fee. -/
theorem surplus_le_creditDeposit {input : Input} {feeRate : Nat} {dest : Dest}
    (shaped : store.queue.Shaped)
    (credited : store.creditDeposit input feeRate dest = .ok after) :
    store.surplus ≤ after.surplus := by
  obtain ⟨older, building, fee, coin, split, ⟨tx, first⟩, -, -, divided, afterEq⟩ :=
    creditDeposit_eq_ok credited
  have pendingEq : (((building.collect (fee / store.bitcoinConfig.unitsPerSat)).withInput
      input).insertPending dest coin).pending = building.pending ++ [(dest, coin)] := rfl
  have feePoolEq : after.feePool = store.feePool + asI64 fee := by rw [afterEq]
  have amounts : (coin.amount + fee : Int) = input.amount * store.bitcoinConfig.unitsPerSat := by
    exact_mod_cast divided
  have feeLe := asI64_le fee
  have moved : after.surplus = _ :=
    surplus_replaceBuilding shaped split (by rw [afterEq]) (by rw [afterEq])
  rw [Checkpoint.mainTx_credited first, BitcoinTx.balance_credited, feePoolEq, pendingEq,
    totalAmount_append, totalAmount_singleton] at moved
  push_cast at moved
  linarith

theorem surplus_le_relayDeposit {btcTx : Transaction} {btcHeight btcVout sigsetIndex : Nat}
    {btcProof : PartialMerkleTree} {dest : Dest} (shaped : store.queue.Shaped)
    (relayed : store.relayDeposit host env btcTx btcHeight btcProof btcVout sigsetIndex dest =
      .ok after) : store.surplus ≤ after.surplus := by
  obtain ⟨output, checkpoint, _, timeout, -, -, -, -, -, ⟨recoveryTxs, rfl⟩ | ⟨input, -, credited⟩⟩ :=
    relayDeposit_eq_ok relayed
  · exact le_rfl
  · have inserted : (store.insertOutpoint ⟨btcTx.txid host, btcVout⟩ timeout).queue.Shaped := shaped
    have insertedSurplus : (store.insertOutpoint ⟨btcTx.txid host, btcVout⟩ timeout).surplus =
        store.surplus := rfl
    rw [← insertedSurplus]
    exact surplus_le_creditDeposit inserted credited

/-- A withdrawal takes at most its amount. -/
theorem surplus_le_addWithdrawal {scriptPubkey : Script} {amount : Nat}
    (shaped : store.queue.Shaped)
    (added : store.addWithdrawal host scriptPubkey amount = .ok after) :
    store.surplus ≤ after.surplus + amount := by
  obtain ⟨older, building, fee, split, ⟨tx, first⟩, -, -, covered, -, afterEq⟩ :=
    addWithdrawal_eq_ok added
  have samePending : ((building.collect (fee / store.bitcoinConfig.unitsPerSat)).withOutput
      ⟨asU64 (amount - fee) / store.bitcoinConfig.unitsPerSat, scriptPubkey⟩).pending =
        building.pending := rfl
  have feePoolEq : after.feePool = store.feePool + asI64 fee := by rw [afterEq]
  have feeLe := asI64_le fee
  have paidLe : store.bitcoinConfig.unitsPerSat *
      (asU64 (amount - fee) / store.bitcoinConfig.unitsPerSat) ≤ amount - fee :=
    (Nat.mul_div_le _ _).trans (Nat.mod_le _ _)
  have paidLeInt : (store.bitcoinConfig.unitsPerSat *
      (asU64 (amount - fee) / store.bitcoinConfig.unitsPerSat : Nat) : Int) ≤ amount - fee := by
    rw [← Nat.cast_sub covered]
    exact_mod_cast paidLe
  have moved : after.surplus = _ :=
    surplus_replaceBuilding shaped split (by rw [afterEq]) (by rw [afterEq])
  rw [Checkpoint.mainTx_withdrawn first, BitcoinTx.balance_withdrawn, feePoolEq,
    samePending] at moved
  linarith

end Store

namespace Contract

/-- What a run keeps about the funds: nothing is collected before the first
checkpoint. -/
structure Funded (store : Store) : Prop where
  shaped : store.queue.Shaped
  feePool_empty : store.queue.checkpoints = [] → store.feePool = 0

/-- The rate is not changed while there are checkpoints. -/
def KeepsRate (store : Store) (call : Call) : Prop :=
  ∀ config ∈ call.bitcoinConfig, store.queue.checkpoints = [] ∨
    config.unitsPerSat = store.bitcoinConfig.unitsPerSat

/-- The miner fee of the checkpoint that a call freezes is converted without
overflow. -/
def StepFits (host : Host) (store : Store) (call : Call) : Prop :=
  ∀ hash ∈ call.blockHash, Outcome.Ensures store.queue.takePendingCompleted fun taken =>
    ∀ enabled, Reserve.StepFits host { store with queue := taken.1 } call.env enabled hash

instance (store : Store) (call : Call) : Decidable (KeepsRate store call) :=
  inferInstanceAs (Decidable (∀ config ∈ call.bitcoinConfig, _))

instance (host : Host) (store : Store) (call : Call) : Decidable (StepFits host store call) :=
  have (hash : Bytes) (taken : QueueStore × Payouts) : Decidable (∀ enabled : Bool,
      Reserve.StepFits host { store with queue := taken.1 } call.env enabled hash) :=
    inferInstance
  inferInstanceAs (Decidable (∀ hash ∈ call.blockHash, Outcome.Ensures _ _))

variable {host : Host} {store after : Store} {call : Call} {response : Response}

namespace Funded

theorem of_split {older : List Checkpoint} {building : Checkpoint} (shaped : after.queue.Shaped)
    (split : after.queue.checkpoints = older ++ [building]) : Funded after where
  shaped := shaped
  feePool_empty := by simp [split]

/-- The number of checkpoints and the fee pool stay the same. -/
theorem kept (funded : Funded store) (shaped : after.queue.Shaped)
    (sameLength : after.queue.checkpoints.length = store.queue.checkpoints.length)
    (sameFeePool : after.feePool = store.feePool) : Funded after where
  shaped := shaped
  feePool_empty := by
    intro empty
    rw [sameFeePool]
    apply funded.feePool_empty
    rw [← List.length_eq_zero_iff, ← sameLength]
    exact List.length_eq_zero_iff.mpr empty

theorem congr (funded : Funded store) (same : store.SameFunds after) : Funded after :=
  funded.kept (same.queue_eq ▸ funded.shaped) (by rw [same.queue_eq]) same.feePool_eq

theorem relayDeposit {env : Env} {btcTx : Transaction} {btcHeight btcVout sigsetIndex : Nat}
    {btcProof : PartialMerkleTree} {dest : Dest} (funded : Funded store)
    (relayed : store.relayDeposit host env btcTx btcHeight btcProof btcVout sigsetIndex dest =
      .ok after) : Funded after := by
  have shaped := Store.shaped_relayDeposit funded.shaped relayed
  obtain ⟨_, _, _, _, -, -, -, -, -, ⟨recoveryTxs, rfl⟩ | ⟨input, -, credited⟩⟩ :=
    Store.relayDeposit_eq_ok relayed
  · exact funded.kept shaped rfl rfl
  · obtain ⟨older, building, fee, coin, -, -, -, -, -, afterEq⟩ :=
      Store.creditDeposit_eq_ok credited
    exact .of_split shaped (by rw [afterEq])

theorem addWithdrawals {scriptPubkey : Script} {denom : String} {funds : List Coin}
    (funded : Funded store)
    (added : addWithdrawals host scriptPubkey denom store funds = .ok after) : Funded after := by
  refine addWithdrawals_invariant Funded ?_ funded added
  intro current amount next currentFunded addedOne
  obtain ⟨older, building, fee, -, -, -, -, -, -, nextEq⟩ := Store.addWithdrawal_eq_ok addedOne
  exact .of_split (Store.shaped_addWithdrawal currentFunded.shaped addedOne) (by rw [nextEq])

theorem sign {queue : QueueStore} {xpub : Xpub} {sigs : List Signature} {index btcHeight : Nat}
    (funded : Funded store)
    (signed : store.queue.sign host xpub sigs index btcHeight = .ok queue) :
    Funded { store with queue } := by
  refine funded.kept (funded.shaped.sign signed) ?_ rfl
  obtain ⟨_, replacement, -, -, -, -, -, rfl⟩ := QueueStore.sign_eq_ok signed
  exact List.length_set

/-- Without checkpoints there is nothing to cover, whatever the rate. -/
theorem surplus_empty (funded : Funded store) (empty : store.queue.checkpoints = []) :
    store.surplus = 0 := by
  have pendingEq : store.queue.pending = [] := by
    rw [QueueStore.pending, empty]
    rfl
  rw [Store.surplus, QueueStore.reserve_empty empty, pendingEq, funded.feePool_empty empty]
  simp

end Funded

/-- The withdrawals of a call take at most what it burns. -/
theorem surplus_le_addWithdrawals {scriptPubkey : Script} {denom : String} (factory contract : Addr)
    {funds : List Coin} (shaped : store.queue.Shaped)
    (added : addWithdrawals host scriptPubkey denom store funds = .ok after) :
    store.surplus ≤ after.surplus + burnedTotal (burnMsgs factory denom funds contract) := by
  induction funds generalizing store with
  | nil =>
      obtain rfl := Except.ok.inj added
      simp [burnMsgs]
  | cons fund funds ih =>
      simp only [addWithdrawals] at added
      split at added
      · rename_i isBridged
        simp only [Outcome.bind_eq_ok] at added
        obtain ⟨middle, addedOne, addedRest⟩ := added
        have takes := Store.surplus_le_addWithdrawal shaped addedOne
        have rest := ih (Store.shaped_addWithdrawal shaped addedOne) addedRest
        have burns : burnedTotal (burnMsgs factory denom (fund :: funds) contract) =
            fund.amount + burnedTotal (burnMsgs factory denom funds contract) := by
          simp [burnMsgs, burnedTotal, isBridged, CosmosMsg.burned]
        rw [burns]
        push_cast
        linarith
      · rename_i isOther
        have burns : burnMsgs factory denom (fund :: funds) contract =
            burnMsgs factory denom funds contract := by
          simp [burnMsgs, isOther]
        rw [burns]
        exact ih shaped added

/-- The messages of an entry mint at most its amount. -/
theorem mintedTotal_payoutMsgs_le {querier : Querier} {env : Env} {dest : Dest} {coin : Coin}
    {msgs : List CosmosMsg} (paid : payoutMsgs host querier env store dest coin = .ok msgs) :
    mintedTotal msgs ≤ coin.amount := by
  obtain ⟨feeData, split, rfl⟩ := payoutMsgs_eq_ok.mp paid
  obtain ⟨covered, bridgeEq, relayerEq, shareEq⟩ := processDeductFee_eq_ok split
  rw [mintedTotal_append, mintedTotal_append, Dest.mintedTotal_buildCosmosMsg,
    mintedTotal_feeMsgs, mintedTotal_feeMsgs, bridgeEq, relayerEq, shareEq]
  dsimp only
  have shareLe : (if dest.Dropped env store.config.osorEntryPointContract then 0 else
      coin.amount - (store.bridgeFee coin.amount + store.relayerFeeIn host querier coin.denom)) ≤
        coin.amount - (store.bridgeFee coin.amount + store.relayerFeeIn host querier coin.denom) := by
    split
    · exact Nat.zero_le _
    · exact le_rfl
  omega

theorem mintedTotal_flatten_le {querier : Querier} {env : Env} {entries : List (Dest × Coin)}
    {emitted : List (List CosmosMsg)}
    (paid : List.Forall₂ (fun entry msgs =>
      payoutMsgs host querier env store entry.1 entry.2 = .ok msgs) entries emitted) :
    mintedTotal emitted.flatten ≤ totalAmount entries := by
  induction paid with
  | nil => simp
  | @cons entry msgs entries emitted head rest ih =>
      have first := mintedTotal_payoutMsgs_le head
      have total : totalAmount (entry :: entries) = entry.2.amount + totalAmount entries := by
        simp [totalAmount]
      rw [List.flatten_cons, mintedTotal_append, total]
      omega

/-- The end of a block keeps the funds in shape. -/
theorem Funded.clockEndBlock {querier : Querier} {env : Env} {hash : Bytes} (funded : Funded store)
    (clocked : clockEndBlock host querier env store hash = .ok response) : Funded response.1 := by
  obtain ⟨queue, dests, _, begun, offline, punished, taken, -, begunOk, punishedOk, responseEq⟩ :=
    clockEndBlock_eq_ok clocked
  obtain ⟨allow, pushed, steppedOk⟩ := maybeStep_of_beginBlockStep begunOk
  have same : begun.SameFunds response.1 := by
    rw [responseEq]
    exact (outsideRegistry_punishAll punishedOk).sameFunds.trans ⟨rfl, rfl, rfl⟩
  have takenShaped : ({ store with queue } : Store).queue.Shaped :=
    funded.shaped.takePendingCompleted taken
  have takenFunded : Funded { store with queue } :=
    funded.kept takenShaped (QueueStore.length_takePendingCompleted taken) rfl
  refine Funded.congr ⟨Store.shaped_maybeStep takenShaped steppedOk, ?_⟩ same
  rcases Store.maybeStep_eq_ok steppedOk with ⟨rfl, -⟩ | ⟨⟨first⟩⟩ | ⟨rollover, -⟩
  · exact takenFunded.feePool_empty
  · simp [first.checkpoints_after]
  · simp [rollover.checkpoints_after]

theorem FundsEffect.funded (effect : FundsEffect host store call response) (funded : Funded store) :
    Funded response.1 := by
  cases effect with
  | deposit _ _ _ _ _ _ _ _ _ relayed => exact funded.relayDeposit relayed
  | withdrawal _ _ _ _ _ _ _ added => exact funded.addWithdrawals added
  | signature _ _ _ _ _ signed => exact funded.sign signed
  | confirmation _ _ _ _ relayed =>
      obtain ⟨-, -, rfl⟩ := Store.relayCheckpoint_eq_ok relayed
      exact funded.kept (funded.shaped.withConfirmed _) rfl rfl
  | rate => exact funded.kept funded.shaped rfl rfl
  | endBlock _ _ clocked => exact funded.clockEndBlock clocked
  | other _ same => exact funded.congr same

/-- The end of a block mints at most the transfers that it hands out. -/
theorem surplus_le_clockEndBlock {hash : Bytes} (shaped : store.queue.Shaped)
    (isClock : call.blockHash = some hash) (fits : StepFits host store call)
    (clocked : clockEndBlock host call.querier call.env store hash = .ok response) :
    store.surplus + mintedTotal response.2 ≤ response.1.surplus := by
  obtain ⟨emitted, emittedEq, paid⟩ := clockEndBlock_msgs clocked
  have mintedLe : mintedTotal response.2 ≤ totalAmount store.queue.payouts := by
    rw [emittedEq]
    exact mintedTotal_flatten_le paid
  obtain ⟨queue, dests, _, begun, offline, punished, taken, -, begunOk, punishedOk, responseEq⟩ :=
    clockEndBlock_eq_ok clocked
  obtain ⟨allow, pushed, steppedOk⟩ := maybeStep_of_beginBlockStep begunOk
  have same : begun.SameFunds response.1 := by
    rw [responseEq]
    exact (outsideRegistry_punishAll punishedOk).sameFunds.trans ⟨rfl, rfl, rfl⟩
  have handed := Store.surplus_takePendingCompleted shaped taken
  have stepped := Store.surplus_maybeStep (fits hash isClock _ taken allow) steppedOk
  rw [same.surplus_eq, stepped, handed]
  have prunedNonneg : (0 : Int) ≤ totalAmount (queue.prunedPending begun.queue) := by positivity
  have mintedInt : (mintedTotal response.2 : Int) ≤ totalAmount store.queue.payouts := by
    exact_mod_cast mintedLe
  linarith

/-- Every call burns at least what it takes from the reserve, and what it mints
is covered. -/
theorem FundsEffect.covers (effect : FundsEffect host store call response) (funded : Funded store)
    (keepsRate : KeepsRate store call) (fits : StepFits host store call) :
    store.surplus + mintedTotal response.2 ≤ response.1.surplus + burnedTotal response.2 := by
  cases effect with
  | deposit _ _ _ _ _ _ _ _ _ relayed =>
      simpa using Store.surplus_le_relayDeposit funded.shaped relayed
  | withdrawal _ env _ _ _ _ _ added =>
      simpa [mintedTotal_burnMsgs] using surplus_le_addWithdrawals store.config.tokenFactoryAddr
        env.contractAddress funded.shaped added
  | signature _ _ _ _ _ signed =>
      obtain ⟨sameReserve, samePending⟩ := QueueStore.reserve_sign signed
      simp [Store.surplus, sameReserve, samePending]
  | confirmation _ _ _ _ relayed =>
      obtain ⟨-, -, rfl⟩ := Store.relayCheckpoint_eq_ok relayed
      exact le_rfl
  | rate config _ isConfig =>
      rcases keepsRate config isConfig with empty | sameRate
      · have after : Funded { store with bitcoinConfig := config } :=
          funded.kept funded.shaped rfl rfl
        rw [funded.surplus_empty empty, after.surplus_empty empty]
        simp
      · simp [Store.surplus, sameRate]
  | endBlock hash isClock clocked =>
      exact le_add_of_le_of_nonneg (surplus_le_clockEndBlock funded.shaped isClock fits clocked)
        (Int.natCast_nonneg _)
  | other _ same minted burned => rw [same.surplus_eq, minted, burned]

/-- What the calls of a run mint is covered by what they burn and by what they
leave in the reserve. -/
theorem minted_le_of_permitted {calls : List Call} (funded : Funded store)
    (permitted : (machine host).Permitted ((machine host).OnSuccess fun store call =>
      KeepsRate store call ∧ StepFits host store call) store calls) :
    store.surplus + mintedTotal (emittedMsgs host store calls) ≤
      ((machine host).run store calls).surplus + burnedTotal (emittedMsgs host store calls) := by
  induction calls generalizing store with
  | nil => simp [emittedMsgs]
  | cons called calls ih =>
      obtain ⟨allowed, rest⟩ := permitted
      rw [emittedMsgs, mintedTotal_append, burnedTotal_append, CallMachine.run_cons]
      cases ok : Contract.call host store called with
      | error fault =>
          have same : (machine host).next store called = store := by
            simp [CallMachine.next, machine, ok]
          rw [same] at rest ⊢
          simpa using ih funded rest
      | ok response =>
          have isNext : (machine host).next store called = response.1 := by
            simp [CallMachine.next, machine, ok]
          obtain ⟨keepsRate, fits⟩ := allowed response.1 (by simp [machine, ok])
          have effect := fundsEffect_of_call ok
          have covers := effect.covers funded keepsRate fits
          rw [isNext] at rest ⊢
          have later := ih (effect.funded funded) rest
          push_cast
          linarith

end Contract

/-- In every run that keeps the rate and converts its miner fees without
overflow, the coins that have been minted and not burned, the pending transfers
and the fee pool are worth no more than the reserve. -/
theorem Contract.run_supply_backed (host : Host) (info : MessageInfo) (msg : InstantiateMsg)
    {calls : List Call}
    (permitted : (machine host).Permitted ((machine host).OnSuccess fun store call =>
      KeepsRate store call ∧ StepFits host store call) (instantiate host info msg) calls) :
    let store := (machine host).run (instantiate host info msg) calls
    let emitted := emittedMsgs host (instantiate host info msg) calls
    (mintedTotal emitted : Int) - burnedTotal emitted + totalAmount store.queue.pending +
      store.feePool ≤ store.bitcoinConfig.unitsPerSat * store.queue.reserve := by
  intro store emitted
  have start : Funded (instantiate host info msg) := ⟨.empty rfl rfl, fun _ => rfl⟩
  have covered := minted_le_of_permitted start permitted
  rw [start.surplus_empty rfl] at covered
  change _ ≤ store.surplus + burnedTotal emitted at covered
  rw [Store.surplus] at covered
  linarith

namespace Sample

/-- The calls that take a deposit, mint it, and withdraw most of it again. -/
def withdrawalCalls : List Contract.Call := payoutCalls largeDepositTx (.address "a") ++ [
  executeAt 1420 (.updateBitcoinConfig { BitcoinConfig.default with minWithdrawalCheckpoints := 0 }),
  .clockEndBlock querier (env 1420) [3],
  .execute querier (env 1430)
    { sender := "a", funds := [⟨"factory/factory/obtc", 9000000000001⟩] } (.withdrawToBitcoin "b")]

end Sample

theorem Contract.run_supply_backed_sample :
    let start := instantiate Sample.host Sample.info Sample.instantiateMsg
    let store := (machine Sample.host).run start Sample.withdrawalCalls
    let emitted := emittedMsgs Sample.host start Sample.withdrawalCalls
    0 < burnedTotal emitted ∧ burnedTotal emitted < mintedTotal emitted ∧
      (mintedTotal emitted : Int) - burnedTotal emitted + totalAmount store.queue.pending +
        store.feePool ≤ store.bitcoinConfig.unitsPerSat * store.queue.reserve :=
  ⟨by decide +kernel, by decide +kernel, @run_supply_backed Sample.host Sample.info
    Sample.instantiateMsg Sample.withdrawalCalls (by decide +kernel)⟩

end CwBitcoin
