import CwBitcoin.PushAgreement
import CwBitcoin.TokenSupply

/-!
# The fee pool

Users pay into the fee pool what the checkpoint under construction collects,
and the miner fee of a checkpoint is taken from it.  A checkpoint is only
pushed before its maximum interval when it has collected its miner fee, so
without forced pushes the pool always covers what has been collected, and the
coins in circulation are covered by the reserve alone.
-/

namespace CwBitcoin

namespace QueueStore

/-- The queue, seen by the fees that its checkpoints have collected. -/
def fees (queue : QueueStore) : Window Nat := queue.window.map Checkpoint.feesCollected

variable {queue after : QueueStore} {index : Nat} {checkpoint replacement : Checkpoint}
  {older : List Checkpoint}

theorem fees_put (found : queue.window.item index = some checkpoint)
    (same : replacement.feesCollected = checkpoint.feesCollected) :
    (queue.put index replacement).fees = queue.fees :=
  Window.map_put Checkpoint.feesCollected found same

theorem fees_sign {host : Host} {xpub : Xpub} {sigs : List Signature} {btcHeight : Nat}
    (signed : queue.sign host xpub sigs index btcHeight = .ok after) : after.fees = queue.fees := by
  obtain ⟨checkpoint, signedCheckpoint, got, -, -, sameFields, -, rfl⟩ := sign_eq_ok signed
  obtain ⟨-, found⟩ := get_eq_ok.mp got
  apply fees_put found
  rw [sameFields]

theorem fees_takePendingCompleted {dests : Payouts}
    (taken : queue.takePendingCompleted = .ok (after, dests)) : after.fees = queue.fees := by
  refine takePendingCompleted_invariant (fun current => current.fees = queue.fees) ?_ ?_ rfl taken
  · intro current index checkpoint same got
    obtain ⟨-, found⟩ := get_eq_ok.mp got
    have paidOut : (current.put index checkpoint.paidOut).fees = current.fees := fees_put found rfl
    exact paidOut.trans same
  · exact fun _ _ same => same

/-- The fees that the checkpoint under construction has collected, if there is
one. -/
def collected (queue : QueueStore) : Option Nat := queue.fees.items.getLast?

theorem collected_eq : queue.collected = queue.checkpoints.getLast?.map Checkpoint.feesCollected :=
  List.getLast?_map

theorem collected_of_split {building : Checkpoint} (split : queue.checkpoints = older ++ [building]) :
    queue.collected = some building.feesCollected := by
  rw [collected_eq, split, List.getLast?_concat, Option.map_some]

end QueueStore

namespace Store

variable {host : Host} {env : Env} {store after : Store} {commitment : Bytes} {btcHeight : Nat}

/-- Before a push, the fees that the checkpoint under construction has
collected are compared with its miner fee. -/
def ChecksFees (env : Env) (store : Store) : Prop :=
  ∀ building ∈ store.queue.checkpoints.getLast?,
    env.seconds - building.createTime < store.checkpointConfig.maxCheckpointInterval ∨
      store.queue.buildingIndex = 0

instance (env : Env) (store : Store) : Decidable (store.ChecksFees env) :=
  inferInstanceAs (Decidable (∀ building ∈ store.queue.checkpoints.getLast?, _))

theorem fee_le_of_buildingReady (checks : store.ChecksFees env)
    (ready : store.buildingReady host env commitment btcHeight = .ok true) :
    ∃ building fee, store.queue.building = .ok building ∧
      store.queue.calcFeeCheckpoint host store.checkpointConfig store.queue.buildingIndex
        commitment = .ok fee ∧ fee ≤ building.feesCollected := by
  simp only [buildingReady, Outcome.bind_eq_ok, Outcome.ite_pure_false_eq_ok] at ready
  obtain ⟨building, read, elapsed, elapsedOk, -, ready⟩ := ready
  obtain ⟨-, older, split⟩ := QueueStore.building_eq_ok.mp read
  obtain ⟨-, rfl⟩ := Outcome.checkedSub_eq_ok.mp elapsedOk
  have early := checks building (by rw [split, List.getLast?_concat]; rfl)
  simp only [if_pos early] at ready
  have enough {nothing : Prop} [Decidable nothing] {fee : Nat}
      (notIdle : ¬ decide (nothing ∨ building.feesCollected < fee) = true) :
      fee ≤ building.feesCollected := by
    rw [decide_eq_true_eq, not_or] at notIdle
    exact Nat.le_of_not_lt notIdle.2
  split at ready
  · simp only [Outcome.bind_eq_ok, Outcome.ite_pure_false_eq_ok, Outcome.pure_eq_ok] at ready
    obtain ⟨_, -, _, -, -, fee, charged, _, -, _, rfl, notIdle, -⟩ := ready
    exact ⟨building, fee, read, charged, enough notIdle⟩
  · simp only [Outcome.bind_eq_ok, Outcome.ite_pure_false_eq_ok, Outcome.pure_eq_ok] at ready
    obtain ⟨_, -, -, fee, charged, _, -, _, rfl, notIdle, -⟩ := ready
    exact ⟨building, fee, read, charged, enough notIdle⟩
  · simp at ready

/-- Without pruning what is not confirmed, a checkpoint that is pushed in time
has collected its miner fee. -/
theorem Rollover.cpFees_le {unitsPerSat : Nat}
    (rollover : Rollover host env commitment unitsPerSat store after) (shaped : store.queue.Shaped)
    (confirmedLe : ∀ confirmedIndex ∈ store.queue.confirmedIndex,
      confirmedIndex ≤ store.queue.buildingIndex)
    (should : store.shouldPush host env commitment btcHeight = .ok true)
    (checks : store.ChecksFees env)
    (keeps : Outcome.Ensures (store.pushAndPrune host env rollover.depositsEnabled)
      (QueueStore.KeepsUnconfirmed store.queue)) :
    rollover.cpFees ≤ rollover.building.feesCollected := by
  have nonempty : store.queue.checkpoints ≠ [] := by simp [rollover.checkpoints_eq]
  obtain ⟨noSigning, ready, ⟨count, counted, -⟩, -⟩ := shouldPush_eq_ok should
  obtain ⟨building, fee, read, charged, enough⟩ := fee_le_of_buildingReady checks (ready nonempty)
  obtain ⟨-, buildingAt⟩ := QueueStore.get_eq_ok.mp read
  obtain rfl := Option.some.inj (buildingAt.symm.trans rollover.item_building)
  have ordered := shaped.ordered_of_split rollover.checkpoints_eq
  have confirmedBefore := QueueStore.confirmed_le_of_numUnconfirmed noSigning counted confirmedLe
  have feesEq := rollover.cpFees_eq
  simp only [stepFees, Outcome.bind_eq_ok] at feesEq
  obtain ⟨⟨pushedStore, pushed⟩, push, queue, pruneOk, feesEq⟩ := feesEq
  have grown : store.pushAndPrune host env rollover.depositsEnabled = .ok queue := by
    simp only [pushAndPrune, push, Outcome.ok_bind]
    exact pruneOk
  obtain ⟨_, _, -, -, -, -, rfl⟩ := maybePush_eq_ok (ready_of_shouldPush should) push
  obtain ⟨extended⟩ := extended_of_pushAndPrune nonempty should grown
  have prevIndex : queue.buildingIndex - 1 = store.queue.buildingIndex := by
    rw [extended.buildingIndex_after, Nat.add_sub_cancel]
  have sameFee : rollover.cpFees = fee := by
    rw [prevIndex, extended.calcFeeCheckpoint_after ordered rollover.checkpoints_eq noSigning
      confirmedBefore (keeps queue grown)] at feesEq
    exact Except.ok.inj (feesEq.symm.trans charged)
  rw [sameFee]
  exact enough

end Store

namespace Contract

/-- What holds between the fee pool and what has been collected. -/
structure FeesCovered (store : Store) : Prop extends Funded store where
  covers : ∀ fees ∈ store.queue.collected,
    (store.bitcoinConfig.unitsPerSat * fees : Int) ≤ store.feePool

/-- The fee that a user pays in a call is converted without overflow. -/
def FeeFits (host : Host) (store : Store) : Call → Prop
  | .execute _ _ _ (.relayDeposit _ _ _ _ sigsetIndex _) =>
      Outcome.Ensures (store.depositFee sigsetIndex) fun fee => fee < 2 ^ 63
  | .execute _ _ _ (.withdrawToBitcoin btcAddress) =>
      Outcome.Ensures (addressScript host btcAddress) fun scriptPubkey =>
        Outcome.Ensures (store.withdrawalFee scriptPubkey) fun fee => fee < 2 ^ 63
  | _ => True

/-- A further checkpoint that is pushed in a call is checked for its fees, and
the ones that are not confirmed stay in the queue. -/
def PushesPaid (host : Host) (store : Store) (call : Call) : Prop :=
  ∀ hash ∈ call.blockHash, Outcome.Ensures store.queue.takePendingCompleted fun taken =>
    Store.shouldPush host call.env { store with queue := taken.1 } hash
        (HeaderQueue.height store.headers) = .ok true → taken.1.checkpoints ≠ [] →
      Store.ChecksFees call.env { store with queue := taken.1 } ∧
        ∀ enabled, Outcome.Ensures
          (Store.pushAndPrune host call.env { store with queue := taken.1 } enabled)
          (QueueStore.KeepsUnconfirmed taken.1)

/-- The call pushes no checkpoint that has not collected its miner fee, keeps the
rate, and converts its fees without overflow. -/
structure Unforced (host : Host) (store : Store) (call : Call) : Prop where
  keepsRate : KeepsRate store call
  feeFits : FeeFits host store call
  stepFits : StepFits host store call
  pushesPaid : PushesPaid host store call

section Decidable

variable (host : Host) (store : Store) (call : Call)

instance : Decidable (FeeFits host store call) := by
  unfold FeeFits
  split <;> infer_instance

instance : Decidable (PushesPaid host store call) :=
  have (taken : QueueStore × Payouts) : Decidable (∀ enabled, Outcome.Ensures
      (Store.pushAndPrune host call.env { store with queue := taken.1 } enabled)
      (QueueStore.KeepsUnconfirmed taken.1)) := inferInstance
  inferInstanceAs (Decidable (∀ hash ∈ call.blockHash, Outcome.Ensures _ _))

instance : Decidable (Unforced host store call) :=
  decidable_of_iff (_ ∧ _ ∧ _ ∧ _)
    ⟨fun ⟨keepsRate, feeFits, stepFits, pushesPaid⟩ => ⟨keepsRate, feeFits, stepFits, pushesPaid⟩,
      fun unforced => ⟨unforced.keepsRate, unforced.feeFits, unforced.stepFits,
        unforced.pushesPaid⟩⟩

end Decidable

variable {host : Host} {store after : Store} {call : Call} {response : Response}

namespace FeesCovered

/-- What is collected goes to the fee pool. -/
theorem collect {older : List Checkpoint} {building replacement : Checkpoint} {fee : Nat}
    (covered : FeesCovered store) (funded : Funded after)
    (split : store.queue.checkpoints = older ++ [building])
    (splitAfter : after.queue.checkpoints = older ++ [replacement])
    (collects : replacement.feesCollected =
      building.feesCollected + fee / store.bitcoinConfig.unitsPerSat)
    (sameConfig : after.bitcoinConfig = store.bitcoinConfig)
    (pays : after.feePool = store.feePool + asI64 fee) (small : fee < 2 ^ 63) :
    FeesCovered after := by
  refine ⟨funded, ?_⟩
  intro fees isCollected
  rw [QueueStore.collected_of_split splitAfter] at isCollected
  obtain rfl := Option.some.inj isCollected
  have before := covered.covers _ (QueueStore.collected_of_split split)
  have rounded : ((store.bitcoinConfig.unitsPerSat * (fee / store.bitcoinConfig.unitsPerSat) : Nat) :
      Int) ≤ fee := by
    exact_mod_cast Nat.mul_div_le fee _
  rw [sameConfig, pays, asI64_of_lt small, collects]
  push_cast at rounded ⊢
  linarith

theorem congr (covered : FeesCovered store) (funded : Funded after)
    (sameCollected : after.queue.collected = store.queue.collected)
    (sameConfig : after.bitcoinConfig = store.bitcoinConfig)
    (sameFeePool : after.feePool = store.feePool) : FeesCovered after := by
  refine ⟨funded, ?_⟩
  rw [sameCollected, sameConfig, sameFeePool]
  exact covered.covers

theorem relayDeposit {env : Env} {btcTx : Transaction} {btcHeight btcVout sigsetIndex : Nat}
    {btcProof : PartialMerkleTree} {dest : Dest} (covered : FeesCovered store)
    (fits : Outcome.Ensures (store.depositFee sigsetIndex) fun fee => fee < 2 ^ 63)
    (relayed : store.relayDeposit host env btcTx btcHeight btcProof btcVout sigsetIndex dest =
      .ok after) : FeesCovered after := by
  have funded := covered.toFunded.relayDeposit relayed
  obtain ⟨output, checkpoint, _, timeout, -, got, -, -, -, ⟨recoveryTxs, rfl⟩ | ⟨input, made, credited⟩⟩ :=
    Store.relayDeposit_eq_ok relayed
  · exact covered.congr funded rfl rfl rfl
  · obtain ⟨-, -, sizeEq, -, -⟩ := Input.new_eq_ok made
    obtain ⟨older, building, fee, coin, split, -, ⟨size, sized, charged⟩, -, -, afterEq⟩ :=
      Store.creditDeposit_eq_ok credited
    have small : fee < 2 ^ 63 := by
      apply fits
      rw [Input.estVsize, sizeEq] at sized
      simp only [Store.depositFee, Outcome.bind_eq_ok]
      exact ⟨checkpoint, got, size, sized, charged⟩
    exact covered.collect funded split (by rw [afterEq]) rfl (by rw [afterEq]; rfl)
      (by rw [afterEq]; rfl) small

theorem addWithdrawal {scriptPubkey : Script} {amount : Nat} (covered : FeesCovered store)
    (fits : Outcome.Ensures (store.withdrawalFee scriptPubkey) fun fee => fee < 2 ^ 63)
    (added : store.addWithdrawal host scriptPubkey amount = .ok after) :
    FeesCovered after ∧ after.withdrawalFee scriptPubkey = store.withdrawalFee scriptPubkey := by
  have shaped := Store.shaped_addWithdrawal covered.shaped added
  obtain ⟨older, building, fee, split, -, charged, -, -, -, afterEq⟩ :=
    Store.addWithdrawal_eq_ok added
  have splitAfter : after.queue.checkpoints = older ++
      [(building.collect (fee / store.bitcoinConfig.unitsPerSat)).withOutput
        ⟨asU64 (amount - fee) / store.bitcoinConfig.unitsPerSat, scriptPubkey⟩] := by
    rw [afterEq]
  refine ⟨covered.collect (.of_split shaped splitAfter) split splitAfter rfl (by rw [afterEq])
    (by rw [afterEq]) (fits fee charged), ?_⟩
  have read : store.queue.building = .ok building :=
    QueueStore.building_eq_ok.mpr ⟨(covered.shaped.ordered_of_split split).aligned, older, split⟩
  have readAfter := QueueStore.building_eq_ok.mpr
    ⟨(shaped.ordered_of_split splitAfter).aligned, older, splitAfter⟩
  rw [Store.withdrawalFee, Store.withdrawalFee, read, readAfter, afterEq]
  rfl

theorem addWithdrawals {scriptPubkey : Script} {denom : String} {funds : List Coin}
    (covered : FeesCovered store)
    (fits : Outcome.Ensures (store.withdrawalFee scriptPubkey) fun fee => fee < 2 ^ 63)
    (added : addWithdrawals host scriptPubkey denom store funds = .ok after) :
    FeesCovered after := by
  have kept : FeesCovered after ∧
      Outcome.Ensures (after.withdrawalFee scriptPubkey) fun fee => fee < 2 ^ 63 := by
    refine addWithdrawals_invariant (fun current => FeesCovered current ∧
      Outcome.Ensures (current.withdrawalFee scriptPubkey) fun fee => fee < 2 ^ 63) ?_
      ⟨covered, fits⟩ added
    rintro current amount next ⟨currentCovered, currentFits⟩ addedOne
    obtain ⟨nextCovered, sameFee⟩ := currentCovered.addWithdrawal currentFits addedOne
    exact ⟨nextCovered, sameFee ▸ currentFits⟩
  exact kept.1

theorem clockEndBlock {hash : Bytes} (covered : FeesCovered store)
    (confirmedLe : ∀ confirmedIndex ∈ store.queue.confirmedIndex,
      confirmedIndex ≤ store.queue.buildingIndex)
    (isClock : call.blockHash = some hash) (paid : PushesPaid host store call)
    (clocked : clockEndBlock host call.querier call.env store hash = .ok response) :
    FeesCovered response.1 := by
  have funded := covered.toFunded.clockEndBlock clocked
  obtain ⟨queue, dests, _, begun, offline, punished, taken, -, begunOk, punishedOk, responseEq⟩ :=
    clockEndBlock_eq_ok clocked
  obtain ⟨allow, pushed, steppedOk⟩ := maybeStep_of_beginBlockStep begunOk
  have same : begun.SameFunds response.1 := by
    rw [responseEq]
    exact (outsideRegistry_punishAll punishedOk).sameFunds.trans ⟨rfl, rfl, rfl⟩
  refine ⟨funded, ?_⟩
  rw [same.queue_eq, same.bitcoinConfig_eq, same.feePool_eq]
  have sameCollected : queue.collected = store.queue.collected := by
    rw [QueueStore.collected, QueueStore.fees_takePendingCompleted taken, QueueStore.collected]
  obtain ⟨sameIndex, sameConfirmed⟩ := QueueStore.indexes_takePendingCompleted taken
  rcases Store.maybeStep_eq_ok steppedOk with ⟨rfl, -⟩ | ⟨⟨first⟩⟩ | ⟨rollover, enabled⟩
  · rw [sameCollected]
    exact covered.covers
  · have empty : store.queue.checkpoints = [] := by
      rw [← List.length_eq_zero_iff, ← QueueStore.length_takePendingCompleted taken]
      exact List.length_eq_zero_iff.mpr first.empty
    have feePoolEq : begun.feePool = store.feePool := by rw [first.after_eq]
    have startsEmpty : begun.queue.collected = some 0 := by
      rw [QueueStore.collected_eq, first.checkpoints_after]
      rfl
    rw [startsEmpty, feePoolEq, covered.feePool_empty empty]
    simp
  · have split : queue.checkpoints = rollover.older ++ [rollover.building] :=
      rollover.checkpoints_eq
    have should := rollover.shouldPush_of_maybeStep steppedOk
    obtain ⟨checks, keeps⟩ := paid hash isClock _ taken should (by simp [split])
    have takenShaped : ({ store with queue } : Store).queue.Shaped :=
      covered.shaped.takePendingCompleted taken
    have enough := rollover.cpFees_le takenShaped (by
      dsimp only
      rw [sameIndex, sameConfirmed]
      exact confirmedLe) should checks (keeps _)
    have startsEmpty : begun.queue.collected = some 0 := by
      have splitAfter : begun.queue.checkpoints =
          (rollover.older.drop rollover.pruned ++ [rollover.frozen]) ++ [rollover.fresh] := by
        rw [rollover.checkpoints_after, List.append_assoc]
        rfl
      exact QueueStore.collected_of_split splitAfter
    have before := covered.covers rollover.building.feesCollected (by
      rw [← sameCollected]
      exact QueueStore.collected_of_split split)
    have feePoolEq : begun.feePool = store.feePool -
        asI64 (rollover.cpFees * store.bitcoinConfig.unitsPerSat) := by
      have paid := congrArg Store.feePool rollover.after_eq
      exact paid
    have convertedLe := asI64_le (rollover.cpFees * store.bitcoinConfig.unitsPerSat)
    have enoughInt : (store.bitcoinConfig.unitsPerSat * rollover.cpFees : Int) ≤
        store.bitcoinConfig.unitsPerSat * rollover.building.feesCollected := by
      exact_mod_cast Nat.mul_le_mul_left _ enough
    rw [startsEmpty, feePoolEq]
    intro fees isZero
    obtain rfl := Option.some.inj isZero
    push_cast at convertedLe ⊢
    linarith

end FeesCovered

theorem FundsEffect.feesCovered (effect : FundsEffect host store call response)
    (covered : FeesCovered store)
    (confirmedLe : ∀ confirmedIndex ∈ store.queue.confirmedIndex,
      confirmedIndex ≤ store.queue.buildingIndex)
    (unforced : Unforced host store call) : FeesCovered response.1 := by
  have funded := effect.funded covered.toFunded
  cases effect with
  | deposit _ _ _ _ _ _ _ _ _ relayed => exact covered.relayDeposit unforced.feeFits relayed
  | withdrawal _ _ _ _ scriptPubkey _ scripted added =>
      exact covered.addWithdrawals (unforced.feeFits scriptPubkey scripted) added
  | signature _ _ _ _ _ signed =>
      apply covered.congr funded _ rfl rfl
      rw [QueueStore.collected, QueueStore.fees_sign signed, QueueStore.collected]
  | confirmation _ _ _ _ relayed =>
      obtain ⟨-, -, rfl⟩ := Store.relayCheckpoint_eq_ok relayed
      exact covered.congr funded rfl rfl rfl
  | rate config _ isConfig =>
      refine ⟨funded, ?_⟩
      rcases unforced.keepsRate config isConfig with empty | sameRate
      · simp [QueueStore.collected_eq, empty]
      · rw [sameRate]
        exact covered.covers
  | endBlock hash isClock clocked =>
      exact covered.clockEndBlock confirmedLe isClock unforced.pushesPaid clocked
  | other _ same =>
      exact covered.congr funded (by rw [same.queue_eq]) same.bitcoinConfig_eq same.feePool_eq

theorem run_feesCovered (host : Host) (info : MessageInfo) (msg : InstantiateMsg)
    {calls : List Call}
    (permitted : (machine host).Permitted ((machine host).OnSuccess (Unforced host))
      (instantiate host info msg) calls) :
    FeesCovered ((machine host).run (instantiate host info msg) calls) := by
  have start : FeesCovered (instantiate host info msg) :=
    ⟨⟨.empty rfl rfl, fun _ => rfl⟩, nofun⟩
  have confirmedLe : (machine host).Permitted (fun store _ =>
      ∀ confirmedIndex ∈ store.queue.confirmedIndex, confirmedIndex ≤ store.queue.buildingIndex)
      (instantiate host info msg) calls :=
    CallMachine.permitted_of_reachable (run_confirmed_le host info msg) calls
  refine CallMachine.run_invariant FeesCovered ?_ start (confirmedLe.and permitted)
  rintro store call after covered ⟨before, unforced⟩ called
  have allowed := unforced after called
  simp only [machine, Outcome.map_eq_ok] at called
  obtain ⟨response, called, rfl⟩ := called
  exact (fundsEffect_of_call called).feesCovered covered before allowed

end Contract

/-- In every run without forced pushes, the fee pool covers what the checkpoint
under construction has collected, and so the coins in circulation and the
pending transfers are worth no more than the reserve. -/
theorem Contract.run_feePool_covers (host : Host) (info : MessageInfo) (msg : InstantiateMsg)
    {calls : List Call}
    (permitted : (machine host).Permitted ((machine host).OnSuccess (Unforced host))
      (instantiate host info msg) calls) :
    let store := (machine host).run (instantiate host info msg) calls
    let emitted := emittedMsgs host (instantiate host info msg) calls
    (∀ fees ∈ store.queue.collected,
        (store.bitcoinConfig.unitsPerSat * fees : Int) ≤ store.feePool) ∧
      0 ≤ store.feePool ∧
      (mintedTotal emitted : Int) - burnedTotal emitted + totalAmount store.queue.pending ≤
        store.bitcoinConfig.unitsPerSat * store.queue.reserve := by
  intro store emitted
  have covered : FeesCovered store := run_feesCovered host info msg permitted
  have nonneg : 0 ≤ store.feePool := by
    cases collectedEq : store.queue.collected with
    | none =>
        have empty : store.queue.checkpoints = [] := by
          simpa [QueueStore.collected_eq] using collectedEq
        exact le_of_eq (covered.feePool_empty empty).symm
    | some fees => exact (by positivity : (0 : Int) ≤ _).trans (covered.covers fees collectedEq)
  refine ⟨covered.covers, nonneg, ?_⟩
  have start : Funded (instantiate host info msg) := ⟨.empty rfl rfl, fun _ => rfl⟩
  have balanced := minted_le_of_permitted start (permitted.imp fun _ _ allowed after called =>
    ⟨(allowed after called).keepsRate, (allowed after called).stepFits⟩)
  rw [start.surplus_empty rfl] at balanced
  change _ ≤ store.surplus + burnedTotal emitted at balanced
  rw [Store.surplus] at balanced
  linarith

theorem Contract.run_feePool_covers_sample :
    let start := instantiate Sample.host Sample.info Sample.instantiateMsg
    let store := (machine Sample.host).run start Sample.withdrawalCalls
    let emitted := emittedMsgs Sample.host start Sample.withdrawalCalls
    burnedTotal emitted < mintedTotal emitted ∧
      (∀ fees ∈ store.queue.collected,
        (store.bitcoinConfig.unitsPerSat * fees : Int) ≤ store.feePool) ∧
      0 ≤ store.feePool ∧
      (mintedTotal emitted : Int) - burnedTotal emitted + totalAmount store.queue.pending ≤
        store.bitcoinConfig.unitsPerSat * store.queue.reserve :=
  ⟨by decide +kernel, @run_feePool_covers Sample.host Sample.info Sample.instantiateMsg
    Sample.withdrawalCalls (by decide +kernel)⟩

namespace Sample

/-- The calls that take a deposit, and freeze its checkpoint and an idle one
after it, which is pushed for its age alone. -/
def forcedCalls : List Contract.Call := payoutCalls largeDepositTx (.address "a") ++ [
  .clockEndBlock querier (env (1400 + MAX_CHECKPOINT_INTERVAL)) [3]]

end Sample

/-- A forced push pays its miner fee out of the reserve, so that more coins are in
circulation than it covers. -/
theorem Contract.run_feePool_negative :
    let start := instantiate Sample.host Sample.info Sample.instantiateMsg
    let store := (machine Sample.host).run start Sample.forcedCalls
    let emitted := emittedMsgs Sample.host start Sample.forcedCalls
    store.feePool < 0 ∧ (store.bitcoinConfig.unitsPerSat * store.queue.reserve : Int) <
      mintedTotal emitted - burnedTotal emitted + totalAmount store.queue.pending :=
  ⟨by decide +kernel, by decide +kernel⟩

end CwBitcoin
