import CwBitcoin.InputUniqueness
import CwBitcoin.PendingPayouts
import CwBitcoin.RecoveryOutput

/-!
# What becomes of a deposit

A processed outpoint was credited to its destination once, or it is spent by one recovery
transaction, and this never changes afterwards.  What the signatories are asked to sign,
for checkpoints and for recovery, therefore spends no output twice.
-/

namespace CwBitcoin

/-- The recovery transaction without its signatures. -/
def RecoveryTx.unsigned (recoveryTx : RecoveryTx) : RecoveryTx :=
  { recoveryTx with tx := recoveryTx.tx.unsigned }

namespace RecoveryTxs

/-- The outputs that the recovery transactions spend. -/
def prevouts (recoveryTxs : List RecoveryTx) : List OutPoint :=
  recoveryTxs.flatMap fun recoveryTx => recoveryTx.tx.prevouts

variable {host : Host} {xpub : Xpub} {recoveryTxs after : List RecoveryTx}
  {sigs remaining : List Signature}

theorem prevouts_congr (same : after.map RecoveryTx.unsigned = recoveryTxs.map RecoveryTx.unsigned) :
    prevouts after = prevouts recoveryTxs := by
  have erased (txs : List RecoveryTx) : prevouts txs = prevouts (txs.map RecoveryTx.unsigned) := by
    simp [prevouts, RecoveryTx.unsigned, List.flatMap_map]
  rw [erased, same, ← erased]

/-- Signatures are all that signing changes. -/
theorem signEach_unsigned (signed : signEach host xpub recoveryTxs sigs = .ok (after, remaining)) :
    after.map RecoveryTx.unsigned = recoveryTxs.map RecoveryTx.unsigned := by
  induction recoveryTxs generalizing sigs after remaining with
  | nil =>
      simp only [signEach, Except.ok.injEq, Prod.mk.injEq] at signed
      rw [← signed.1]
  | cons recoveryTx rest ih =>
      simp only [signEach, Outcome.bind_eq_ok, Outcome.pure_eq_ok, Prod.mk.injEq, Prod.exists]
        at signed
      obtain ⟨tx, left, signedTx, others, last, signedRest, rfl, -⟩ := signed
      have sameTx : RecoveryTx.unsigned { recoveryTx with tx } = recoveryTx.unsigned := by
        rw [RecoveryTx.unsigned, BitcoinTx.sign_unsigned signedTx]
        rfl
      rw [List.map_cons, List.map_cons, sameTx, ih signedRest]

theorem sign_unsigned (signed : sign host recoveryTxs xpub sigs = .ok after) :
    after.map RecoveryTx.unsigned = recoveryTxs.map RecoveryTx.unsigned := by
  simp only [sign, Outcome.bind_eq_ok, Outcome.pure_eq_ok, Prod.exists] at signed
  obtain ⟨-, -, _, _, signedEach, -, -, rfl⟩ := signed
  exact signEach_unsigned signedEach

/-- A created transaction spends the deposit. -/
theorem Created.prevouts_eq {args : RecoveryTxInput} {recoveryTx : RecoveryTx}
    (created : Created host args recoveryTx) :
    recoveryTx.tx.prevouts = [⟨args.expiredTx.txid host, args.vout⟩] := by
  obtain ⟨spends, -⟩ := Input.new_eq_ok created.input_eq
  rw [created.tx_eq, ← spends]
  rfl

end RecoveryTxs

section RelayDeposit

variable {host : Host} {env : Env} {store after : Store}

/-- A relayed deposit is recovered, or added to the checkpoint under construction and
credited. -/
theorem Store.fate_of_relayDeposit {btcTx : Transaction} {btcHeight btcVout sigsetIndex : Nat}
    {btcProof : PartialMerkleTree} {dest : Dest} (shaped : store.queue.Shaped)
    (relayed : store.relayDeposit host env btcTx btcHeight btcProof btcVout sigsetIndex dest =
      .ok after) :
    (after.queue = store.queue ∧ ∃ recoveryTx, after.recoveryTxs = store.recoveryTxs ++ [recoveryTx] ∧
        recoveryTx.tx.prevouts = [⟨btcTx.txid host, btcVout⟩]) ∨
      after.recoveryTxs = store.recoveryTxs ∧
        after.queue.prevouts = store.queue.prevouts ++ [⟨btcTx.txid host, btcVout⟩] ∧
          ∃ coin, after.queue.pending = store.queue.pending ++ [(dest, coin)] := by
  simp only [relayDeposit, Outcome.bind_eq_ok] at relayed
  obtain ⟨txid, -, -, -, output, -, checkpoint, -, script, -, -, -, -, -, timeout, -, -, -,
    relayed⟩ := relayed
  split at relayed
  · simp only [Outcome.bind_eq_ok, Outcome.pure_eq_ok] at relayed
    obtain ⟨building, -, recoveryTxs, createdOk, rfl⟩ := relayed
    obtain ⟨recoveryTx, rfl, ⟨created⟩⟩ := RecoveryTxs.createRecoveryTx_eq_ok createdOk
    exact .inl ⟨rfl, recoveryTx, rfl, created.prevouts_eq⟩
  · simp only [Outcome.bind_eq_ok] at relayed
    obtain ⟨input, made, credited⟩ := relayed
    have inserted : (store.insertOutpoint ⟨btcTx.txid host, btcVout⟩ timeout).queue.Shaped := shaped
    obtain ⟨spends, -⟩ := Input.new_eq_ok made
    obtain ⟨prevoutsEq, -⟩ := prevouts_creditDeposit inserted credited
    rw [spends] at prevoutsEq
    obtain ⟨older, building, fee, coin, split, -, -, -, -, rfl⟩ := creditDeposit_eq_ok credited
    exact .inr ⟨rfl, prevoutsEq, coin, QueueStore.flatMap_replaceBuilding _ split rfl⟩

end RelayDeposit

namespace Contract

variable {host : Host} {store after : Store} {call : Call}

section Frames

theorem recoveryTxs_clockEndBlock {querier : Querier} {env : Env} {hash : Bytes}
    {response : Response} (called : clockEndBlock host querier env store hash = .ok response) :
    response.1.recoveryTxs = store.recoveryTxs := by
  obtain ⟨queue, dests, -, begun, offline, punished, -, -, begunOk, punishedOk, rfl⟩ :=
    clockEndBlock_eq_ok called
  obtain ⟨allow, pushed, steppedOk⟩ := maybeStep_of_beginBlockStep begunOk
  have begunEq : begun.recoveryTxs = store.recoveryTxs := by
    rcases Store.maybeStep_eq_ok steppedOk with ⟨rfl, -⟩ | ⟨⟨first⟩⟩ | ⟨rollover, -⟩
    · rfl
    · rw [first.after_eq]
    · rw [rollover.after_eq]
  rw [(outsideRegistry_punishAll punishedOk).after_eq]
  exact begunEq

/-- Only relayed deposits add recovery transactions, and no call removes or replaces one. -/
theorem recoveryTxs_of_call (called : (machine host).call store call = .ok after)
    (noDeposit : call.deposit = none) :
    after.recoveryTxs.map RecoveryTx.unsigned = store.recoveryTxs.map RecoveryTx.unsigned := by
  obtain ⟨response, executed, rfl⟩ := executed_of_machine called
  cases executed with
  | relayDeposit => cases noDeposit
  | triggerBeginBlock _ _ _ _ clocked | clockEndBlock _ _ _ clocked =>
      rw [recoveryTxs_clockEndBlock clocked]
  | submitRecoverySignature _ _ _ _ _ signed => exact RecoveryTxs.sign_unsigned signed
  | withdrawToBitcoin _ _ _ _ _ _ added =>
      refine addWithdrawals_invariant (fun current => current.recoveryTxs.map RecoveryTx.unsigned =
        store.recoveryTxs.map RecoveryTx.unsigned) ?_ rfl added
      intro current amount next same addedOne
      obtain ⟨older, building, fee, -, -, -, -, -, -, rfl⟩ := Store.addWithdrawal_eq_ok addedOne
      exact same
  | relayCheckpoint _ _ _ _ _ _ relayed =>
      obtain ⟨-, -, rfl⟩ := Store.relayCheckpoint_eq_ok relayed
      rfl
  | addValidators => rw [(outsideRegistry_saveValidators _).after_eq]
  | setSignatoryKey _ _ _ _ saved => rw [(outsideRegistry_setSignatoryKey saved).after_eq]
  | updateConfig | updateCheckpointConfig | updateBitcoinConfig | updateHeaderConfig
  | relayHeaders | submitCheckpointSignature | registerDenom | changeBtcDenomOwner => rfl

/-- Recovery transactions are only appended, and only get signatures. -/
theorem recoveryTxs_mono (shaped : store.queue.Shaped) (calls : List Call) :
    store.recoveryTxs.map RecoveryTx.unsigned <+:
      ((machine host).run store calls).recoveryTxs.map RecoveryTx.unsigned := by
  refine (CallMachine.run_invariant_all (fun later : Store => later.queue.Shaped ∧
    store.recoveryTxs.map RecoveryTx.unsigned <+: later.recoveryTxs.map RecoveryTx.unsigned) ?_
    ⟨shaped, List.prefix_rfl⟩ calls).2
  rintro before call after ⟨shapedHere, isPrefix⟩ called
  have effect := effect_of_call called
  refine ⟨effect.shaped shapedHere, ?_⟩
  have unrelayed (noDeposit : call.deposit = none) :
      store.recoveryTxs.map RecoveryTx.unsigned <+: after.recoveryTxs.map RecoveryTx.unsigned := by
    rw [recoveryTxs_of_call called noDeposit]
    exact isPrefix
  cases effect with
  | deposit _ _ _ _ _ _ _ _ _ relayed =>
      rcases Store.fate_of_relayDeposit shapedHere relayed with
        ⟨-, recoveryTx, recoveryEq, -⟩ | ⟨sameRecovery, -⟩
      · rw [recoveryEq, List.map_append]
        exact isPrefix.trans (List.prefix_append _ _)
      · rw [sameRecovery]
        exact isPrefix
  | configuration => exact unrelayed rfl
  | withdrawal _ noDeposit | signature _ noDeposit | confirmation _ noDeposit
  | endBlock _ noDeposit | other _ noDeposit => exact unrelayed noDeposit

end Frames

section Spent

variable (hashed : Hashed)

theorem mem_frozen_freeze {env : Env} {commitment : Bytes} {unitsPerSat : Nat}
    (rollover : Store.Rollover host env commitment unitsPerSat store after) :
    rollover.frozenTx.skeleton ∈ (hashed.freeze store after).frozen := by
  rw [Hashed.freeze, if_pos (by rw [rollover.buildingIndex_after]; omega), rollover.get_frozen,
    ← rollover.mainTx_frozen]
  exact List.mem_cons_self

/-- Only relayed deposits are processed, and otherwise only a reserve that has been frozen
is spent newly. -/
theorem Effect.spent (effect : Effect host store call after) (shaped : store.queue.Shaped)
    (noDeposit : call.deposit = none) :
    after.outpoints = store.outpoints ∧ ∀ prevout ∈ after.queue.prevouts,
      prevout ∈ store.queue.prevouts ∨
        ∃ tx ∈ (observeHashed host store call after hashed).frozen,
          prevout = ⟨host.txHash tx, 0⟩ := by
  have unspent {next : Store} (sameOutpoints : next.outpoints = store.outpoints)
      (samePrevouts : next.queue.prevouts = store.queue.prevouts) :
      next.outpoints = store.outpoints ∧ ∀ prevout ∈ next.queue.prevouts,
        prevout ∈ store.queue.prevouts ∨
          ∃ tx ∈ (observeHashed host store call next hashed).frozen,
            prevout = ⟨host.txHash tx, 0⟩ :=
    ⟨sameOutpoints, fun _ member => .inl (samePrevouts ▸ member)⟩
  cases effect with
  | deposit => cases noDeposit
  | withdrawal _ _ _ _ _ added =>
      obtain ⟨-, sameOutpoints, samePrevouts⟩ := addWithdrawals_invariant
        (fun current : Store => current.queue.Shaped ∧ current.outpoints = store.outpoints ∧
          current.queue.prevouts = store.queue.prevouts)
        (fun current amount next ⟨shapedHere, sameOutpoints, samePrevouts⟩ addedOne => by
          obtain ⟨nextPrevouts, nextOutpoints⟩ := Store.prevouts_addWithdrawal shapedHere addedOne
          exact ⟨Store.shaped_addWithdrawal shapedHere addedOne,
            nextOutpoints.trans sameOutpoints, nextPrevouts.trans samePrevouts⟩)
        ⟨shaped, rfl, rfl⟩ added
      exact unspent sameOutpoints samePrevouts
  | signature _ _ _ _ _ _ signed => exact unspent rfl (QueueStore.prevouts_sign signed)
  | confirmation _ _ _ _ _ relayed =>
      obtain ⟨-, -, rfl⟩ := Store.relayCheckpoint_eq_ok relayed
      exact unspent rfl rfl
  | configuration => exact unspent rfl rfl
  | @endBlock _ hash queue stepped _ isClock _ _ _ taken _ _ _ steppedOk same =>
      have takenPrevouts := QueueStore.prevouts_takePendingCompleted taken
      have takenShaped := shaped.takePendingCompleted taken
      have sameIndex := (QueueStore.indexes_takePendingCompleted taken).1
      have samePrevouts : after.queue.prevouts = stepped.queue.prevouts := by rw [same.queue_eq]
      rcases Store.maybeStep_eq_ok steppedOk with ⟨rfl, -⟩ | ⟨⟨first⟩⟩ | ⟨rollover, -⟩
      · exact unspent same.outpoints_eq (samePrevouts.trans takenPrevouts)
      · have nothing : stepped.queue.prevouts = [] := by
          rw [QueueStore.prevouts, first.checkpoints_after]
          rfl
        refine ⟨same.outpoints_eq.trans (by rw [first.after_eq]), fun prevout member => ?_⟩
        rw [samePrevouts, nothing] at member
        cases member
      · have ordered := takenShaped.ordered_of_split rollover.checkpoints_eq
        have freezeEq : observeHashed host store call after hashed =
            hashed.freeze { store with queue } stepped := by
          simp [observeHashed, noDeposit, isClock, Hashed.freeze, redeemScripts, sameIndex,
            same.queue_eq, same.checkpointConfig_eq]
        refine ⟨same.outpoints_eq.trans rollover.outpoints_after, fun prevout member => ?_⟩
        obtain ⟨kept, keptSublist, permuted⟩ := rollover.prevouts_perm ordered
        rw [samePrevouts] at member
        rcases List.mem_cons.mp (permuted.mem_iff.mp member) with rfl | old
        · rw [freezeEq]
          exact .inr ⟨_, mem_frozen_freeze hashed rollover, rfl⟩
        · exact .inl (takenPrevouts ▸ keptSublist.mem old)
  | other _ _ same => exact unspent same.outpoints_eq (by rw [same.queue_eq])

end Spent

section Fate

/-- What holds in every state of a run: the processed outpoints are those that have been
credited and those that are recovered, and the checkpoints spend credited outpoints and
frozen reserves. -/
structure FateKept (host : Host) (store : Store) (ledger : Ledger) (hashed : Hashed) : Prop where
  conserved : PayoutsConserved store ledger
  fates : (ledger.inserted.map Prod.fst ++ RecoveryTxs.prevouts store.recoveryTxs).Perm
    store.outpoints
  distinct : store.outpoints.Nodup
  spent : ∀ prevout ∈ store.queue.prevouts, prevout ∈ ledger.inserted.map Prod.fst ∨
    ∃ tx ∈ hashed.frozen, prevout = ⟨host.txHash tx, 0⟩

variable {ledger : Ledger} {hashed : Hashed}

theorem FateKept.relayDeposit {env : Env} {querier : Querier} {info : MessageInfo}
    {btcTx : Transaction} {btcHeight btcVout sigsetIndex : Nat} {btcProof : PartialMerkleTree}
    {dest : Dest} (kept : FateKept host store ledger hashed)
    (relayed : store.relayDeposit host env btcTx btcHeight btcProof btcVout sigsetIndex dest =
      .ok after) :
    let call : Call := .execute querier env info
      (.relayDeposit btcTx btcHeight btcProof btcVout sigsetIndex dest)
    FateKept host after (observeLedger host store call after ledger)
      (observeHashed host store call after hashed) := by
  intro call
  have conserved : PayoutsConserved after (observeLedger host store call after ledger) :=
    (Effect.deposit querier env info btcTx btcHeight btcProof btcVout sigsetIndex dest
      relayed).payoutsConserved kept.conserved
  obtain ⟨-, fresh, outpointsEq, -⟩ :=
    Store.pending_relayDeposit kept.conserved.shaped kept.conserved.settled relayed
  have distinct : after.outpoints.Nodup := by
    rw [outpointsEq]
    exact List.nodup_cons.mpr ⟨fresh, kept.distinct⟩
  have insertedEq : (observeLedger host store call after ledger).inserted = ledger.inserted ++
      (after.queue.pending.drop store.queue.pending.length).map fun entry =>
        (⟨btcTx.txid host, btcVout⟩, entry) := rfl
  have frozenEq : (observeHashed host store call after hashed).frozen = hashed.frozen := rfl
  rcases Store.fate_of_relayDeposit kept.conserved.shaped relayed with
    ⟨sameQueue, recoveryTx, recoveryEq, spends⟩ | ⟨sameRecovery, prevoutsEq, coin, pendingEq⟩
  · have nothing : (observeLedger host store call after ledger).inserted = ledger.inserted := by
      rw [insertedEq, sameQueue, List.drop_length, List.map_nil, List.append_nil]
    refine ⟨conserved, ?_, distinct, ?_⟩
    · rw [nothing, recoveryEq, outpointsEq, RecoveryTxs.prevouts, List.flatMap_append,
        List.flatMap_singleton, spends, ← List.append_assoc]
      exact (List.perm_append_singleton _ _).trans (kept.fates.cons _)
    · rw [nothing, sameQueue, frozenEq]
      exact kept.spent
  · have oneMore : (observeLedger host store call after ledger).inserted.map Prod.fst =
        ledger.inserted.map Prod.fst ++ [⟨btcTx.txid host, btcVout⟩] := by
      rw [insertedEq, pendingEq, List.drop_left, List.map_append]
      rfl
    refine ⟨conserved, ?_, distinct, ?_⟩
    · rw [oneMore, sameRecovery, outpointsEq, List.append_assoc]
      exact List.perm_middle.trans (kept.fates.cons _)
    · rw [oneMore, prevoutsEq, frozenEq]
      intro prevout member
      rcases List.mem_append.mp member with old | isNew
      · exact (kept.spent prevout old).imp_left (List.mem_append_left _)
      · exact .inl (List.mem_append_right _ isNew)

/-- Calls that relay no deposit leave what became of the earlier ones. -/
theorem FateKept.unrelayed (kept : FateKept host store ledger hashed)
    (called : (machine host).call store call = .ok after) (noDeposit : call.deposit = none) :
    FateKept host after (observeLedger host store call after ledger)
      (observeHashed host store call after hashed) := by
  have effect := effect_of_call called
  obtain ⟨sameOutpoints, spent⟩ := effect.spent hashed kept.conserved.shaped noDeposit
  have sameRecovery := RecoveryTxs.prevouts_congr (recoveryTxs_of_call called noDeposit)
  have sameInserted : (observeLedger host store call after ledger).inserted = ledger.inserted := by
    rw [observeLedger, noDeposit]
    dsimp only
    split <;> rfl
  refine ⟨effect.payoutsConserved kept.conserved, ?_, ?_, fun prevout member => ?_⟩
  · rw [sameInserted, sameRecovery, sameOutpoints]
    exact kept.fates
  · rw [sameOutpoints]
    exact kept.distinct
  · rw [sameInserted]
    rcases spent prevout member with old | isReserve
    · rcases kept.spent prevout old with credited | ⟨tx, isFrozen, same⟩
      · exact .inl credited
      · exact .inr ⟨tx, extends_observeHashed.frozen.mem isFrozen, same⟩
    · exact .inr isReserve

theorem FateKept.step (kept : FateKept host store ledger hashed)
    (called : (machine host).call store call = .ok after) :
    FateKept host after (observeLedger host store call after ledger)
      (observeHashed host store call after hashed) := by
  cases effect_of_call called with
  | deposit _ _ _ _ _ _ _ _ _ relayed => exact kept.relayDeposit relayed
  | configuration => exact kept.unrelayed called rfl
  | withdrawal _ noDeposit | signature _ noDeposit | confirmation _ noDeposit
  | endBlock _ noDeposit | other _ noDeposit => exact kept.unrelayed called noDeposit

theorem run_fateKept (host : Host) (info : MessageInfo) (msg : InstantiateMsg)
    (calls : List Call) :
    FateKept host ((machine host).run (instantiate host info msg) calls)
      (runLedger host (instantiate host info msg) calls)
      (runHashed host (instantiate host info msg) calls) := by
  have start : FateKept host (instantiate host info msg) { inserted := [], handed := [] }
      { frozen := [], relayed := [], scripts := [] } :=
    ⟨run_payoutsConserved host info msg [], .refl _, List.nodup_nil, nofun⟩
  refine CallMachine.observed_invariant_pair (FateKept host) ?_ start
    ((machine host).permitted_all (instantiate host info msg) calls)
  intro before ledger hashed call after kept _ called
  exact kept.step called

end Fate

end Contract

/-- In every state of every run each processed outpoint has been credited once or is spent
by one recovery transaction, and not both.  A recovery transaction stays as it is, apart
from its signatures. -/
theorem Contract.run_deposit_fate (host : Host) (info : MessageInfo) (msg : InstantiateMsg)
    (calls more : List Call) :
    let start := instantiate host info msg
    let store := (machine host).run start calls
    ((runLedger host start calls).inserted.map Prod.fst ++
        RecoveryTxs.prevouts store.recoveryTxs).Perm store.outpoints ∧
      store.outpoints.Nodup ∧
      store.recoveryTxs.map RecoveryTx.unsigned <+:
        ((machine host).run start (calls ++ more)).recoveryTxs.map RecoveryTx.unsigned := by
  intro start store
  have kept := run_fateKept host info msg calls
  refine ⟨kept.fates, kept.distinct, ?_⟩
  rw [CallMachine.run_append]
  exact recoveryTxs_mono kept.conserved.shaped more

/-- In every run that keeps its accepted deposits apart from the reserve, no output is spent
by two of the inputs that the signatories are asked to sign, in checkpoints or for recovery. -/
theorem Contract.run_spends_distinct (host : Host) (info : MessageInfo) (msg : InstantiateMsg)
    (calls : List Call) (separates : SeparatesReserve host (instantiate host info msg) calls)
    (collisionFree : (runHashed host (instantiate host info msg) calls).CollisionFree host) :
    let store := (machine host).run (instantiate host info msg) calls
    (store.queue.prevouts ++ RecoveryTxs.prevouts store.recoveryTxs).Nodup := by
  intro store
  have kept := run_fateKept host info msg calls
  have inputs := run_inputsDistinct host info msg separates collisionFree
  have bothDistinct := kept.fates.nodup_iff.mpr kept.distinct
  obtain ⟨-, recovered, apart⟩ := List.nodup_append'.mp bothDistinct
  refine List.nodup_append'.mpr ⟨inputs.nodup, recovered, fun prevout inQueue isRecovered => ?_⟩
  rcases kept.spent prevout inQueue with credited | ⟨tx, isFrozen, rfl⟩
  · exact apart credited isRecovered
  · have processed := kept.fates.mem_iff.mp (List.mem_append_right _ isRecovered)
    exact inputs.separated collisionFree processed isFrozen rfl

namespace Sample

/-- A second deposit to the first checkpoint. -/
def lateDepositTx : Transaction := depositTo 200000 (utf8 "a")

/-- A deposit is credited and its checkpoint frozen, and the second one is relayed too
late. -/
def lateCalls : List Contract.Call := setupCalls ++ [
  executeAt 1410 (.updateHeaderConfig (blockOf (lateDepositTx.txid host))),
  relayDepositAt 1300000 7 lateDepositTx "a"]

end Sample

theorem Contract.run_spends_distinct_sample :
    let store := (machine Sample.host).run
      (instantiate Sample.host Sample.info Sample.instantiateMsg) Sample.lateCalls
    store.queue.prevouts.length = 2 ∧
      RecoveryTxs.prevouts store.recoveryTxs = [⟨Sample.lateDepositTx.txid Sample.host, 0⟩] ∧
        (store.queue.prevouts ++ RecoveryTxs.prevouts store.recoveryTxs).Nodup := by
  refine ⟨by decide +kernel, by decide +kernel, ?_⟩
  exact run_spends_distinct Sample.host Sample.info Sample.instantiateMsg Sample.lateCalls
    (by decide +kernel) ⟨by decide +kernel, by decide +kernel, by decide +kernel⟩

end CwBitcoin
