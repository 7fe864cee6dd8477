import CwBitcoin.PushAgreement

/-!
# Outputs that nodes relay

A withdrawal only enters a checkpoint above the dust limit of its script.  The reserve
gets what the other outputs and the fee leave, which may be nothing, and the commitment
is what the caller hands in.  A frozen transaction is relayed when its inputs leave the
dust limit for the reserve and the commitment is short.
-/

namespace CwBitcoin

/-- An output beside the reserve: a payment above the dust limit, or a commitment to at
most 80 bytes. -/
inductive TxOut.Standard (host : Host) (output : TxOut) : Prop
  | payment (above : host.dustValue output.scriptPubkey < output.value)
  | commitment (data : Bytes) (value_eq : output.value = 0)
      (script_eq : output.scriptPubkey = Script.OP_RETURN :: Script.pushSlice data)
      (short : data.length ≤ 80)

/-- A transaction whose first output holds the reserve. -/
def BitcoinTx.Relayable (host : Host) (tx : BitcoinTx) : Prop :=
  ∃ reserve others, tx.output = reserve :: others ∧
    host.dustValue reserve.scriptPubkey ≤ reserve.value ∧
    ∀ output ∈ others, output.Standard host

namespace Checkpoint

/-- The outputs so far can be relayed, and once the checkpoint is frozen so can its
transaction. -/
structure Relayable (host : Host) (checkpoint : Checkpoint) : Prop where
  building : checkpoint.status = .building →
    ∀ output ∈ checkpoint.mainTx.output, output.Standard host
  frozen : checkpoint.status ≠ .building → checkpoint.mainTx.Relayable host

variable {host : Host} {config : CheckpointConfig} {checkpoint other : Checkpoint}

/-- Only the outputs matter, and whether the checkpoint is frozen. -/
theorem Relayable.congr (relayable : checkpoint.Relayable host)
    (sameStatus : other.status = .building ↔ checkpoint.status = .building)
    (sameOutput : other.mainTx.output = checkpoint.mainTx.output) : other.Relayable host := by
  refine ⟨fun isBuilding => ?_, fun notBuilding => ?_⟩
  · rw [sameOutput]
    exact relayable.building (sameStatus.mp isBuilding)
  · rw [BitcoinTx.Relayable, sameOutput]
    exact relayable.frozen (mt sameStatus.mpr notBuilding)

theorem relayable_new (sigset : SignatorySet) (depositsEnabled : Bool) :
    Relayable host { Checkpoint.new sigset with depositsEnabled } :=
  ⟨fun _ _ member => absurd member List.not_mem_nil, fun notBuilding => absurd rfl notBuilding⟩

/-- A short commitment is a standard output behind the reserve. -/
theorem standard_of_additionalOutputs {commitment : Bytes} {outs output : List TxOut}
    (added : checkpoint.additionalOutputs host config commitment = .ok outs)
    (short : commitment.length ≤ 80) (standard : ∀ each ∈ output, each.Standard host) :
    ∃ reserveScript others, outs ++ output = ⟨0, reserveScript⟩ :: others ∧
      checkpoint.sigset.outputScript host [0] config.sigsetThreshold = .ok reserveScript ∧
      ∀ each ∈ others, each.Standard host := by
  simp only [additionalOutputs, newOpReturn, Outcome.bind_eq_ok, Outcome.pure_eq_ok] at added
  obtain ⟨reserveScript, scripted, commitmentScript, ⟨-, -, rfl⟩, rfl⟩ := added
  refine ⟨reserveScript, _, rfl, scripted, List.forall_mem_cons.mpr ⟨?_, standard⟩⟩
  exact .commitment commitment rfl rfl short

end Checkpoint

namespace Store

/-- The kept inputs of the checkpoint under construction pay for its kept outputs, the
fee, and a reserve output at the dust limit. -/
def LeavesReserve (host : Host) (config : CheckpointConfig) (building : Checkpoint) (fee : Nat) :
    Prop :=
  Outcome.Ensures (building.sigset.outputScript host [0] config.sigsetThreshold)
    fun reserveScript =>
      ((building.mainTx.output.take (config.maxOutputs - 2)).map TxOut.value).sum + fee +
        host.dustValue reserveScript ≤
          ((building.mainTx.input.take config.maxInputs).map Input.amount).sum

/-- A push behind a checkpoint comes with a short hash and leaves a reserve. -/
def PushesRelayable (host : Host) (env : Env) (store : Store) (hash : Bytes) : Prop :=
  store.shouldPush host env hash (HeaderQueue.height store.headers) = .ok true →
    ∀ building ∈ store.queue.checkpoints.getLast?, hash.length ≤ 80 ∧
      ∀ depositsEnabled, Outcome.Ensures (store.stepFees host env depositsEnabled hash)
        (LeavesReserve host store.checkpointConfig building)

instance (host : Host) (config : CheckpointConfig) (building : Checkpoint) :
    DecidablePred (LeavesReserve host config building) :=
  fun _ => inferInstanceAs (Decidable (Outcome.Ensures _ _))

instance (host : Host) (env : Env) (store : Store) (hash : Bytes) :
    Decidable (PushesRelayable host env store hash) :=
  inferInstanceAs (Decidable (_ → ∀ building ∈ store.queue.checkpoints.getLast?, _))

variable {host : Host} {env : Env} {store after : Store} {hash : Bytes} {unitsPerSat : Nat}

/-- The frozen transaction has a reserve output above the dust limit. -/
theorem Rollover.relayable (rollover : Rollover host env hash unitsPerSat store after)
    (standard : ∀ output ∈ rollover.building.mainTx.output, output.Standard host)
    (short : hash.length ≤ 80)
    (leaves : LeavesReserve host store.checkpointConfig rollover.building rollover.cpFees) :
    rollover.frozen.Relayable host ∧ rollover.fresh.Relayable host := by
  obtain ⟨reserveScript, rest, outsEq, scripted, restStandard⟩ :=
    Checkpoint.standard_of_additionalOutputs rollover.outs_eq short standard
  obtain ⟨reserve, others, outputs, unsigned_eq, balance⟩ :=
    Checkpoint.freezeTx_eq_ok rollover.frozen_eq
  obtain ⟨limit, limitEq⟩ : ∃ limit, store.checkpointConfig.maxOutputs = limit + 1 := by
    cases limitIs : store.checkpointConfig.maxOutputs with
    | zero => simp [limitIs] at outputs
    | succ limit => exact ⟨limit, rfl⟩
  have sumEq := Checkpoint.sum_take_additional rollover.outs_eq rollover.building.mainTx.output
  rw [outputs] at sumEq
  rw [outsEq, limitEq, List.take_succ_cons, List.cons.injEq] at outputs
  obtain ⟨rfl, rfl⟩ := outputs
  constructor
  · refine ⟨fun isBuilding => CheckpointStatus.noConfusion isBuilding, fun _ => ?_⟩
    rw [BitcoinTx.Relayable, rollover.mainTx_frozen, BitcoinTx.output_congr unsigned_eq]
    refine ⟨_, _, rfl, ?_, fun output member => restStandard output (List.mem_of_mem_take member)⟩
    have enough := leaves reserveScript scripted
    simp only at enough ⊢
    omega
  · refine ⟨fun _ output member => ?_, fun notBuilding => absurd rfl notBuilding⟩
    have isExcess : output ∈ ((rollover.outs ++ rollover.building.mainTx.output).drop
        store.checkpointConfig.maxOutputs).reverse := member
    rw [outsEq, limitEq, List.drop_succ_cons, List.mem_reverse] at isExcess
    exact restStandard output (List.mem_of_mem_drop isExcess)

theorem dust_lt_of_addWithdrawal {scriptPubkey : Script} {amount fee : Nat}
    (charged : store.withdrawalFee scriptPubkey = .ok fee)
    (added : store.addWithdrawal host scriptPubkey amount = .ok after) :
    host.dustValue scriptPubkey < asU64 (amount - fee) / store.bitcoinConfig.unitsPerSat := by
  simp only [addWithdrawal, Outcome.bind_eq_ok, Outcome.require_eq_ok,
    Outcome.checkedDiv_eq_ok] at added
  obtain ⟨-, -, -, -, building, read, sameFee, chargedAgain, -, -, paid, -, value, ⟨-, rfl⟩, -,
    above, -⟩ := added
  simp only [withdrawalFee, read, Outcome.ok_bind] at charged
  obtain rfl := Except.ok.inj (charged.symm.trans chargedAgain)
  exact above

/-- A withdrawal is one more payment above the dust limit. -/
theorem relayable_addWithdrawal {scriptPubkey : Script} {amount : Nat}
    (shaped : store.queue.Shaped) (relayable : store.queue.Each (Checkpoint.Relayable host))
    (added : store.addWithdrawal host scriptPubkey amount = .ok after) :
    after.queue.Each (Checkpoint.Relayable host) := by
  obtain ⟨older, building, fee, split, ⟨tx, first⟩, charged, -, -, -, afterEq⟩ :=
    addWithdrawal_eq_ok added
  have above := dust_lt_of_addWithdrawal charged added
  have ordered := shaped.ordered_of_split split
  have buildingAt := ordered.item_building split
  rw [afterEq]
  apply relayable.replaceBuilding ordered split
  refine ⟨fun _ output member => ?_, fun notBuilding => absurd (ordered.last buildingAt) notBuilding⟩
  rw [Checkpoint.mainTx_withdrawn first] at member
  rcases List.mem_append.mp member with old | new
  · exact (relayable _ _ buildingAt).building (ordered.last buildingAt) output old
  · rw [List.mem_singleton.mp new]
    exact .payment above

end Store

namespace Contract

/-- A call at the end of a block pushes only what leaves a relayable transaction behind. -/
def PushesRelayable (host : Host) (store : Store) (call : Call) : Prop :=
  ∀ hash ∈ call.blockHash, Outcome.Ensures store.queue.takePendingCompleted fun taken =>
    Store.PushesRelayable host call.env { store with queue := taken.1 } hash

instance (host : Host) : DecidableRel (PushesRelayable host) :=
  fun store call => inferInstanceAs (Decidable (∀ hash ∈ call.blockHash,
    Outcome.Ensures store.queue.takePendingCompleted fun _ => _))

variable {host : Host} {store after : Store} {call : Call}

theorem Effect.relayable (effect : Effect host store call after) (shaped : store.queue.Shaped)
    (pushes : PushesRelayable host store call)
    (relayable : store.queue.Each (Checkpoint.Relayable host)) :
    after.queue.Each (Checkpoint.Relayable host) := by
  cases effect with
  | deposit _ _ _ btcTx _ _ btcVout sigsetIndex dest relayed =>
      rcases Store.credited_of_relayDeposit relayed with same | ⟨⟨credited⟩⟩
      · rwa [same]
      · have ordered := shaped.ordered_of_split credited.checkpoints_eq
        have building := relayable _ _ (ordered.item_building credited.checkpoints_eq)
        rw [credited.after_eq]
        apply relayable.replaceBuilding ordered credited.checkpoints_eq
        have sameOutput : credited.credited.mainTx.output = credited.building.mainTx.output := by
          rw [credited.mainTx_eq]
        exact building.congr Iff.rfl sameOutput
  | withdrawal _ _ _ _ _ added =>
      have kept : after.queue.Shaped ∧ after.queue.Each (Checkpoint.Relayable host) := by
        refine addWithdrawals_invariant (fun current => current.queue.Shaped ∧
          current.queue.Each (Checkpoint.Relayable host)) ?_ ⟨shaped, relayable⟩ added
        rintro current amount next ⟨currentShaped, currentRelayable⟩ addedOne
        exact ⟨Store.shaped_addWithdrawal currentShaped addedOne,
          Store.relayable_addWithdrawal currentShaped currentRelayable addedOne⟩
      exact kept.2
  | signature _ _ xpub sigs cpIndex btcHeight signed =>
      obtain ⟨checkpoint, signedCheckpoint, found, notBuilding, signedOk, rfl⟩ :=
        QueueStore.sign_completed (show store.queue.sign host
          (CheckpointSignature.mk xpub sigs cpIndex btcHeight).xpub _ _ _ = _ from signed)
      have sameTxs := (Checkpoint.sign_eq_ok signedOk).1
      have sameOutput := BitcoinTx.output_congr (Checkpoint.mainTx_unsigned_congr sameTxs)
      refine relayable.put found ((relayable _ _ found).congr ?_ ?_)
      · exact iff_of_false (Checkpoint.completed_not_building notBuilding signedOk) notBuilding
      · rw [Checkpoint.mainTx_completed, sameOutput]
  | confirmation _ _ _ _ _ relayed =>
      obtain ⟨-, -, rfl⟩ := Store.relayCheckpoint_eq_ok relayed
      exact relayable
  | configuration => exact relayable
  | @endBlock _ hash queue stepped _ isClock _ env dests taken _ _ _ steppedOk same isEnv isHeight =>
      subst isEnv isHeight
      have keptShaped := shaped.takePendingCompleted taken
      have kept : queue.Each (Checkpoint.Relayable host) :=
        relayable.takePendingCompleted (fun _ holds => holds.congr Iff.rfl rfl) taken
      rw [same.queue_eq]
      rcases Store.maybeStep_eq_ok steppedOk with ⟨rfl, -⟩ | ⟨⟨first⟩⟩ | ⟨rollover, -⟩
      · exact kept
      · exact QueueStore.each_of_singleton first.checkpoints_after
          (Checkpoint.relayable_new first.sigset first.depositsEnabled)
      · have should := rollover.shouldPush_of_maybeStep steppedOk
        have ordered : queue.Ordered := keptShaped.ordered_of_split rollover.checkpoints_eq
        have found := rollover.item_building
        have isLast : queue.checkpoints.getLast? = some rollover.building := by
          rw [rollover.checkpoints_eq, List.getLast?_concat]
        obtain ⟨short, leaves⟩ := pushes hash isClock _ taken should rollover.building isLast
        obtain ⟨frozen, fresh⟩ := rollover.relayable ((kept _ _ found).building
          (ordered.last found)) short (leaves _ _ rollover.cpFees_eq)
        exact kept.rollover rollover frozen fresh
  | other _ _ same => rwa [same.queue_eq]

/-- In every run whose pushes come with short hashes and leave the dust limit for the
reserve, all frozen transactions can be relayed. -/
theorem run_relayable (host : Host) (info : MessageInfo) (msg : InstantiateMsg)
    (calls : List Call)
    (permitted : (machine host).Permitted ((machine host).OnSuccess (PushesRelayable host))
      (instantiate host info msg) calls) :
    ∀ index checkpoint,
      ((machine host).run (instantiate host info msg) calls).queue.get index = .ok checkpoint →
        checkpoint.status ≠ .building → checkpoint.mainTx.Relayable host := by
  have kept : ((machine host).run (instantiate host info msg) calls).queue.Shaped ∧
      ((machine host).run (instantiate host info msg) calls).queue.Each
        (Checkpoint.Relayable host) := by
    apply CallMachine.run_invariant (fun store : Store =>
      store.queue.Shaped ∧ store.queue.Each (Checkpoint.Relayable host)) _ _ permitted
    · rintro store call after ⟨shaped, relayable⟩ pushes called
      have effect := effect_of_call called
      exact ⟨effect.shaped shaped, effect.relayable shaped (pushes after called) relayable⟩
    · exact ⟨.empty rfl rfl, QueueStore.each_of_empty rfl⟩
  intro index checkpoint got notBuilding
  exact (kept.2 index checkpoint (QueueStore.get_eq_ok.mp got).2).frozen notBuilding

end Contract

namespace Sample

/-- The receiver of the deposit with so many satoshis of the bridged coin. -/
def holderOf (value : Nat) : MessageInfo :=
  { sender := "a", funds := [⟨"factory/factory/obtc", value * 1000000⟩] }

/-- The given amount is withdrawn from the second checkpoint at no charge, and the
checkpoint is frozen. -/
def spendingCalls (value : Nat) (hash : Bytes) : List Contract.Call :=
  withdrawingCalls.dropLast ++ [
    .execute querier (env 1430) (holderOf value) (.withdrawToBitcoin "b"),
    .clockEndBlock querier (env 1100000) hash]

/-- The second checkpoint after these calls. -/
def spentCheckpoint (value : Nat) (hash : Bytes) : Checkpoint :=
  checkpointAt ((Contract.machine host).run initial (spendingCalls value hash)) 1

end Sample

/-- A withdrawal that leaves a reserve. -/
theorem Contract.run_relayable_spent :
    (Sample.spentCheckpoint 9000000 [4]).status = .signing ∧
      (Sample.spentCheckpoint 9000000 [4]).mainTx.Relayable Sample.host := by
  have signing : (Sample.spentCheckpoint 9000000 [4]).status = .signing := by decide +kernel
  exact ⟨signing, run_relayable Sample.host Sample.info Sample.instantiateMsg
    (Sample.spendingCalls 9000000 [4]) (by decide +kernel) 1 _ (by decide +kernel)
    (by rw [signing]; decide)⟩

/-- A withdrawal can leave nothing for the reserve output, and a hash of 81 bytes is
committed to. -/
theorem Contract.run_unrelayable :
    let unreserved := Sample.spentCheckpoint 9964745 [4]
    let committed := Sample.spentCheckpoint 9000000 (List.replicate 81 0)
    (unreserved.status = .signing ∧
        unreserved.mainTx.output.head?.map TxOut.value = some 0 ∧
        ¬ unreserved.mainTx.Relayable Sample.host) ∧
      committed.status = .signing ∧
        committed.mainTx.output[1]? =
          some ⟨0, Script.OP_RETURN :: Script.pushSlice (List.replicate 81 0)⟩ ∧
        ¬ committed.mainTx.Relayable Sample.host := by
  intro unreserved committed
  have nothing : unreserved.mainTx.output.head?.map TxOut.value = some 0 := by decide +kernel
  have spendable : unreserved.mainTx.output.head?.map (fun out =>
      Sample.host.dustValue out.scriptPubkey) = some 618 := by decide +kernel
  have long : committed.mainTx.output[1]? =
      some ⟨0, Script.OP_RETURN :: Script.pushSlice (List.replicate 81 0)⟩ := by decide +kernel
  refine ⟨⟨by decide +kernel, nothing, ?_⟩, by decide +kernel, long, ?_⟩
  · rintro ⟨reserve, others, outputs, above, -⟩
    rw [outputs] at nothing spendable
    have noValue : reserve.value = 0 := Option.some.inj nothing
    have dust : Sample.host.dustValue reserve.scriptPubkey = 618 := Option.some.inj spendable
    rw [noValue, dust] at above
    exact absurd above (by decide)
  · rintro ⟨reserve, others, outputs, -, standard⟩
    rw [outputs, List.getElem?_cons_succ] at long
    cases standard _ (List.mem_of_getElem? long) with
    | payment above => exact absurd above (by decide)
    | commitment data _ script_eq short =>
        have sameLength := congrArg List.length (List.cons.inj script_eq).2
        have atMost := Script.length_pushSlice_medium (short.trans_lt (by decide))
        have exactly : (Script.pushSlice (List.replicate 81 0)).length = 83 := by decide
        omega

end CwBitcoin
