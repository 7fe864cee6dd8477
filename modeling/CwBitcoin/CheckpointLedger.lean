import CwBitcoin.CheckpointTerms
import CwBitcoin.Library.BatchLine

/-!
# The ledger of deposits and withdrawals

Seen from outside, the checkpoint queue is two lines: deposits wait to be spent, and
withdrawals to be paid out, and whenever a checkpoint is frozen a batch is taken from each.
The transactions of the checkpoints carry exactly these batches, behind the input and the
outputs of the reserve, so that no deposit and no withdrawal is lost or carried twice.
-/

namespace CwBitcoin

namespace BitcoinTx

/-- The transaction of the checkpoint with the index spends the reserve, if there is one
yet, and then the given inputs. -/
def Spends (index : Nat) (inputs : List Input) (tx : BitcoinTx) : Prop :=
  ∃ reserve : List Input, reserve.length = min 1 index ∧ tx.unsigned.input = reserve ++ inputs

/-- The transaction pays the reserve and the commitment, and then the given outputs. -/
def Pays (outputs : List TxOut) (tx : BitcoinTx) : Prop :=
  ∃ reserve commitment, tx.output = reserve :: commitment :: outputs

variable {tx other : BitcoinTx} {index : Nat} {inputs : List Input} {outputs : List TxOut}

theorem Spends.congr (spends : tx.Spends index inputs) (same : other.unsigned = tx.unsigned) :
    other.Spends index inputs := by
  obtain ⟨reserve, count, inputEq⟩ := spends
  exact ⟨reserve, count, by rw [same, inputEq]⟩

theorem Pays.congr (pays : tx.Pays outputs) (same : other.unsigned = tx.unsigned) :
    other.Pays outputs := by
  obtain ⟨reserve, commitment, outputEq⟩ := pays
  exact ⟨reserve, commitment, by rw [output_congr same, outputEq]⟩

end BitcoinTx

/-- The line of deposits and that of withdrawals. -/
structure BatchLedger where
  inputs : BatchLine Input
  outputs : BatchLine TxOut

namespace BatchLedger

def empty : BatchLedger := ⟨.empty, .empty⟩

def submit (ledger : BatchLedger) (inputs : List Input) (outputs : List TxOut) : BatchLedger where
  inputs := ledger.inputs.submit inputs
  outputs := ledger.outputs.submit outputs

/-- The checkpoint with the index is frozen: its transaction has room for the reserve, and
for so many deposits and withdrawals. -/
def freeze (ledger : BatchLedger) (config : CheckpointConfig) (index : Nat) : BatchLedger where
  inputs := ledger.inputs.take (config.maxInputs - min 1 index)
  outputs := ledger.outputs.take (config.maxOutputs - 2)

@[simp]
theorem submit_nil (ledger : BatchLedger) : ledger.submit [] [] = ledger := by
  simp [submit]

theorem submit_submit (ledger : BatchLedger) (inputs moreInputs : List Input)
    (outputs moreOutputs : List TxOut) :
    (ledger.submit inputs outputs).submit moreInputs moreOutputs =
      ledger.submit (inputs ++ moreInputs) (outputs ++ moreOutputs) := by
  simp [submit, BatchLine.submit_submit]

end BatchLedger

namespace QueueStore

/-- The transactions of the queue carry what the ledger says. -/
structure Carries (ledger : BatchLedger) (queue : QueueStore) : Prop where
  inputs_length : ledger.inputs.batches.length = queue.buildingIndex
  outputs_length : ledger.outputs.batches.length = queue.buildingIndex
  unstarted : queue.checkpoints = [] → ledger.inputs.waiting = [] ∧ ledger.outputs.waiting = []
  building : ∀ {checkpoint}, queue.window.item queue.buildingIndex = some checkpoint →
    checkpoint.mainTx.Spends queue.buildingIndex ledger.inputs.waiting ∧
      checkpoint.mainTx.output = ledger.outputs.waiting
  frozen : ∀ {index checkpoint}, index < queue.buildingIndex →
    queue.window.item index = some checkpoint →
      ∃ inputs outputs, ledger.inputs.batches[index]? = some inputs ∧
        ledger.outputs.batches[index]? = some outputs ∧
        checkpoint.mainTx.Spends index inputs ∧ checkpoint.mainTx.Pays outputs

namespace Carries

variable {host : Host} {ledger next : BatchLedger} {queue after : QueueStore} {index : Nat}
  {checkpoint replacement : Checkpoint} {older : List Checkpoint}

theorem put (carries : queue.Carries ledger) (found : queue.window.item index = some checkpoint)
    (same : replacement.mainTx.unsigned = checkpoint.mainTx.unsigned) :
    (queue.put index replacement).Carries ledger := by
  have itemAfter {other : Nat} {current : Checkpoint}
      (currentAt : (queue.put index replacement).window.item other = some current) :
      ∃ before, queue.window.item other = some before ∧
        current.mainTx.unsigned = before.mainTx.unsigned := by
    rw [window_put, Window.item_put found] at currentAt
    split at currentAt
    · rename_i isIndex
      obtain rfl := Option.some.inj currentAt
      exact ⟨checkpoint, isIndex ▸ found, same⟩
    · exact ⟨current, currentAt, rfl⟩
  refine ⟨carries.inputs_length, carries.outputs_length, fun unstarted => ?_, fun currentAt => ?_,
    fun below currentAt => ?_⟩
  · apply carries.unstarted
    have noItems : (queue.window.put index replacement).items = [] := unstarted
    simpa [Window.put, window] using noItems
  · obtain ⟨before, beforeAt, sameTx⟩ := itemAfter currentAt
    obtain ⟨spends, outputEq⟩ := carries.building beforeAt
    exact ⟨spends.congr sameTx, (BitcoinTx.output_congr sameTx).trans outputEq⟩
  · obtain ⟨before, beforeAt, sameTx⟩ := itemAfter currentAt
    obtain ⟨inputs, outputs, inputsEq, outputsEq, spends, pays⟩ := carries.frozen below beforeAt
    exact ⟨inputs, outputs, inputsEq, outputsEq, spends.congr sameTx, pays.congr sameTx⟩

theorem takePendingCompleted {dests : Payouts} (carries : queue.Carries ledger)
    (taken : queue.takePendingCompleted = .ok (after, dests)) : after.Carries ledger := by
  refine takePendingCompleted_invariant (Carries ledger) ?_ ?_ carries taken
  · intro current index checkpoint holds got
    exact holds.put (get_eq_ok.mp got).2 rfl
  · intro current other holds
    exact ⟨holds.inputs_length, holds.outputs_length, holds.unstarted, holds.building, holds.frozen⟩

theorem sign {xpub : Xpub} {sigs : List Signature} {btcHeight : Nat}
    (carries : queue.Carries ledger)
    (signed : queue.sign host xpub sigs index btcHeight = .ok after) : after.Carries ledger := by
  obtain ⟨checkpoint, signedCheckpoint, found, -, accepted, rfl⟩ :=
    @sign_completed queue after host ⟨xpub, sigs, index, btcHeight⟩ signed
  refine carries.put found ?_
  rw [Checkpoint.mainTx_completed]
  exact Checkpoint.mainTx_unsigned_congr (Checkpoint.sign_eq_ok accepted).1

/-- What enters the checkpoint under construction enters the lines. -/
theorem submit (carries : queue.Carries ledger) (ordered : queue.Ordered)
    (split : queue.checkpoints = older ++ [checkpoint]) {inputs : List Input}
    {outputs : List TxOut}
    (inputEq : replacement.mainTx.unsigned.input = checkpoint.mainTx.unsigned.input ++ inputs)
    (outputEq : replacement.mainTx.output = checkpoint.mainTx.output ++ outputs) :
    Carries (ledger.submit inputs outputs)
      { queue with checkpoints := older ++ [replacement] } := by
  have found := ordered.item_building split
  rw [← put_building ordered.aligned split]
  refine ⟨carries.inputs_length, carries.outputs_length, fun unstarted => ?_, fun currentAt => ?_,
    fun {other current} below currentAt => ?_⟩
  · have items : (queue.window.put queue.buildingIndex replacement).items = [] := unstarted
    simp [Window.put, window, split] at items
  · obtain ⟨⟨reserve, count, spends⟩, paid⟩ := carries.building found
    have isLast : (queue.put queue.buildingIndex replacement).window.item queue.buildingIndex =
        some replacement := by
      rw [window_put, Window.item_put found, if_pos rfl]
    obtain rfl := Option.some.inj (isLast.symm.trans currentAt)
    refine ⟨⟨reserve, count, ?_⟩, ?_⟩
    · rw [inputEq, spends, List.append_assoc]
      rfl
    · rw [outputEq, paid]
      rfl
  · have notLast : other ≠ queue.buildingIndex := Nat.ne_of_lt below
    rw [window_put, Window.item_put found, if_neg notLast] at currentAt
    exact carries.frozen below currentAt

end Carries

end QueueStore

namespace Store

variable {host : Host} {env : Env} {commitment : Bytes} {unitsPerSat : Nat} {store after : Store}
  {ledger : BatchLedger}

theorem FirstPush.carries (first : FirstPush host env store after)
    (carries : store.queue.Carries ledger) : after.queue.Carries ledger := by
  have sameIndex : after.queue.buildingIndex = store.queue.buildingIndex :=
    first.buildingIndex_after.trans first.buildingIndex_eq.symm
  obtain ⟨noInputs, noOutputs⟩ := carries.unstarted first.empty
  refine ⟨carries.inputs_length.trans sameIndex.symm, carries.outputs_length.trans sameIndex.symm,
    fun unstarted => ?_, fun {checkpoint} found => ?_, fun {index _} below => ?_⟩
  · rw [first.checkpoints_after] at unstarted
    exact absurd unstarted (List.cons_ne_nil _ _)
  · have member : checkpoint ∈ after.queue.checkpoints := Window.mem_of_item found
    rw [first.checkpoints_after, List.mem_singleton] at member
    rw [first.buildingIndex_after, noInputs, noOutputs, member]
    exact ⟨⟨[], rfl, rfl⟩, rfl⟩
  · rw [first.buildingIndex_after] at below
    exact absurd below (Nat.not_lt_zero index)

namespace Rollover

variable (rollover : Rollover host env commitment unitsPerSat store after)

/-- The frozen transaction has the reserve, and the first that waited in each line. -/
theorem frozen_carries {inputs : List Input}
    (someInput : 1 ≤ store.checkpointConfig.maxInputs)
    (someOutputs : 2 ≤ store.checkpointConfig.maxOutputs)
    (spends : rollover.building.mainTx.Spends store.queue.buildingIndex inputs) :
    rollover.frozen.mainTx.Spends store.queue.buildingIndex
        (inputs.take (store.checkpointConfig.maxInputs - min 1 store.queue.buildingIndex)) ∧
      rollover.frozen.mainTx.Pays
        (rollover.building.mainTx.output.take (store.checkpointConfig.maxOutputs - 2)) := by
  obtain ⟨reserve, count, inputEq⟩ := spends
  constructor
  · refine ⟨reserve, count, ?_⟩
    rw [rollover.unsigned_frozenTx, inputEq, List.take_append, count,
      List.take_of_length_le (by omega)]
  · obtain ⟨reserveScript, commitmentScript, -, outsEq⟩ :=
      Checkpoint.additionalOutputs_eq_ok rollover.outs_eq
    obtain ⟨reserveOut, others, outputs, unsignedEq, -⟩ :=
      Checkpoint.freezeTx_eq_ok rollover.frozen_eq
    obtain ⟨room, roomEq⟩ : ∃ room, store.checkpointConfig.maxOutputs = room + 2 :=
      ⟨_, (Nat.sub_add_cancel someOutputs).symm⟩
    rw [outsEq, roomEq, List.cons_append, List.cons_append, List.nil_append, List.take_succ_cons,
      List.take_succ_cons] at outputs
    obtain ⟨rfl, rfl⟩ := List.cons.inj outputs
    refine ⟨⟨rollover.reserveValue, reserveScript⟩, ⟨0, commitmentScript⟩, ?_⟩
    rw [rollover.mainTx_frozen, BitcoinTx.output_congr unsignedEq, roomEq, Nat.add_sub_cancel]

/-- What is left over waits in the new checkpoint, behind the reserve. -/
theorem fresh_carries {inputs : List Input}
    (someInput : 1 ≤ store.checkpointConfig.maxInputs)
    (someOutputs : 2 ≤ store.checkpointConfig.maxOutputs)
    (spends : rollover.building.mainTx.Spends store.queue.buildingIndex inputs) :
    rollover.fresh.mainTx.Spends (store.queue.buildingIndex + 1)
        (inputs.drop (store.checkpointConfig.maxInputs - min 1 store.queue.buildingIndex)).reverse ∧
      rollover.fresh.mainTx.output =
        (rollover.building.mainTx.output.drop (store.checkpointConfig.maxOutputs - 2)).reverse := by
  obtain ⟨reserve, count, inputEq⟩ := spends
  constructor
  · refine ⟨[rollover.reserveInput.unsigned], ?_, ?_⟩
    · rw [List.length_singleton, Nat.min_eq_left (Nat.le_add_left 1 _)]
    · have left : rollover.excess.map Input.unsigned =
          (rollover.building.mainTx.unsigned.input.drop
            store.checkpointConfig.maxInputs).reverse := by
        rw [rollover.excess_eq, List.map_reverse, List.map_drop]
        rfl
      rw [inputEq, List.drop_append, count, List.drop_of_length_le (by omega), List.nil_append]
        at left
      rw [← left]
      rfl
  · obtain ⟨reserveScript, commitmentScript, -, outsEq⟩ :=
      Checkpoint.additionalOutputs_eq_ok rollover.outs_eq
    obtain ⟨room, roomEq⟩ : ∃ room, store.checkpointConfig.maxOutputs = room + 2 :=
      ⟨_, (Nat.sub_add_cancel someOutputs).symm⟩
    change ((rollover.outs ++ _).drop _).reverse = _
    rw [outsEq, roomEq, Nat.add_sub_cancel]
    rfl

include rollover in
theorem carries (someInput : 1 ≤ store.checkpointConfig.maxInputs)
    (someOutputs : 2 ≤ store.checkpointConfig.maxOutputs) (carries : store.queue.Carries ledger) :
    after.queue.Carries (ledger.freeze store.checkpointConfig store.queue.buildingIndex) := by
  obtain ⟨spends, outputEq⟩ := carries.building rollover.item_building
  have frozen := rollover.frozen_carries someInput someOutputs spends
  have fresh := rollover.fresh_carries someInput someOutputs spends
  rw [outputEq] at frozen fresh
  refine ⟨?_, ?_, fun unstarted => ?_, fun found => ?_, fun {index checkpoint} below found => ?_⟩
  · rw [rollover.buildingIndex_after, ← carries.inputs_length]
    exact List.length_append
  · rw [rollover.buildingIndex_after, ← carries.outputs_length]
    exact List.length_append
  · simp [rollover.checkpoints_after] at unstarted
  · rw [rollover.buildingIndex_after] at found ⊢
    rcases rollover.item_after_cases found with ⟨-, rfl⟩ | ⟨same, -⟩ | ⟨below, -⟩
    · exact fresh
    · omega
    · omega
  · rcases rollover.item_after_cases found with ⟨rfl, -⟩ | ⟨rfl, rfl⟩ | ⟨isOlder, oldAt⟩
    · rw [rollover.buildingIndex_after] at below
      omega
    · refine ⟨_, _, ?_, ?_, frozen⟩
      · rw [← carries.inputs_length]
        exact List.getElem?_concat_length
      · rw [← carries.outputs_length]
        exact List.getElem?_concat_length
    · obtain ⟨inputs, outputs, inputsEq, outputsEq, carried⟩ := carries.frozen isOlder oldAt
      refine ⟨inputs, outputs, ?_, ?_, carried⟩
      · exact (List.getElem?_append_left (carries.inputs_length ▸ isOlder)).trans inputsEq
      · exact (List.getElem?_append_left (carries.outputs_length ▸ isOlder)).trans outputsEq

end Rollover

/-- The input of a deposit that is relayed in time, without signatures. -/
def depositInputs (host : Host) (env : Env) (store : Store) (btcTx : Transaction)
    (btcVout sigsetIndex : Nat) (dest : Dest) : List Input :=
  match btcTx.output[btcVout]?, store.queue.get sigsetIndex with
  | some output, .ok checkpoint =>
      if checkpoint.sigset.createTime + store.bitcoinConfig.maxDepositAge < env.seconds then []
      else
        match Input.new host ⟨btcTx.txid host, btcVout⟩ checkpoint.sigset
          (dest.commitmentBytes host) output.value store.checkpointConfig.sigsetThreshold with
        | .ok input => [input.unsigned]
        | .error _ => []
  | _, _ => []

/-- The outputs of a withdrawal: what its coins are worth after the fee. -/
def withdrawalOutputs (store : Store) (scriptPubkey : Script) (denom : String)
    (funds : List Coin) : List TxOut :=
  match store.withdrawalFee scriptPubkey with
  | .ok fee => (funds.filter fun fund => fund.denom = denom).map fun fund =>
      ⟨asU64 (fund.amount - fee) / store.bitcoinConfig.unitsPerSat, scriptPubkey⟩
  | .error _ => []

theorem carries_relayDeposit {btcTx : Transaction} {btcHeight btcVout sigsetIndex : Nat}
    {btcProof : PartialMerkleTree} {dest : Dest} (shaped : store.queue.Shaped)
    (carries : store.queue.Carries ledger)
    (relayed : store.relayDeposit host env btcTx btcHeight btcProof btcVout sigsetIndex dest =
      .ok after) :
    after.queue.Carries
      (ledger.submit (store.depositInputs host env btcTx btcVout sigsetIndex dest) []) := by
  simp only [relayDeposit, Outcome.bind_eq_ok, Outcome.require_eq_ok, Outcome.getOr_fail_eq_ok,
    Outcome.checkedAdd_eq_ok] at relayed
  obtain ⟨txid, -, -, -, output, outputAt, checkpoint, got, -, -, -, -, -, -, depositTimeout,
    ⟨-, rfl⟩, -, -, relayed⟩ := relayed
  split at relayed
  · rename_i late
    simp only [Outcome.bind_eq_ok, Outcome.pure_eq_ok] at relayed
    obtain ⟨building, -, recoveryTxs, -, rfl⟩ := relayed
    have noInputs : store.depositInputs host env btcTx btcVout sigsetIndex dest = [] := by
      simp only [depositInputs, outputAt, got]
      exact if_pos late
    rw [noInputs, BatchLedger.submit_nil]
    exact carries
  · rename_i inTime
    simp only [Outcome.bind_eq_ok] at relayed
    obtain ⟨input, made, credited⟩ := relayed
    have oneInput : store.depositInputs host env btcTx btcVout sigsetIndex dest =
        [input.unsigned] := by
      simp only [depositInputs, outputAt, got]
      rw [if_neg inTime, made]
    obtain ⟨older, building, fee, coin, split, ⟨tx, first⟩, -, -, -, rfl⟩ :=
      creditDeposit_eq_ok credited
    have ordered : store.queue.Ordered := shaped.ordered_of_split split
    rw [oneInput]
    refine carries.submit ordered split ?_ ?_
    · rw [Checkpoint.mainTx_credited first]
      exact List.map_append
    · rw [Checkpoint.mainTx_credited first, List.append_nil]

theorem carries_addWithdrawal {scriptPubkey : Script} {amount fee : Nat}
    (shaped : store.queue.Shaped) (carries : store.queue.Carries ledger)
    (charged : store.withdrawalFee scriptPubkey = .ok fee)
    (added : store.addWithdrawal host scriptPubkey amount = .ok after) :
    after.queue.Carries (ledger.submit []
        [⟨asU64 (amount - fee) / store.bitcoinConfig.unitsPerSat, scriptPubkey⟩]) ∧
      after.withdrawalFee scriptPubkey = .ok fee ∧ after.bitcoinConfig = store.bitcoinConfig := by
  obtain ⟨older, building, paid, split, ⟨tx, first⟩, chargedHere, -, -, -, rfl⟩ :=
    addWithdrawal_eq_ok added
  obtain rfl := Except.ok.inj (charged.symm.trans chargedHere)
  have ordered := shaped.ordered_of_split split
  refine ⟨carries.submit ordered split ?_ ?_, ?_, rfl⟩
  · rw [Checkpoint.mainTx_withdrawn first, List.append_nil]
    rfl
  · rw [Checkpoint.mainTx_withdrawn first]
  · simp only [withdrawalFee, Outcome.bind_eq_ok] at charged ⊢
    obtain ⟨charging, readCharging, charged⟩ := charged
    obtain ⟨aligned, others, splitCharging⟩ := QueueStore.building_eq_ok.mp readCharging
    obtain ⟨-, sameLast⟩ := List.append_inj' (split.symm.trans splitCharging) rfl
    obtain rfl := List.singleton_inj.mp sameLast
    refine ⟨_, QueueStore.building_eq_ok.mpr ⟨?_, older, rfl⟩, charged⟩
    rw [← QueueStore.put_building aligned split]
    exact aligned.put

end Store

namespace Contract

variable {host : Host} {store after : Store} {ledger : BatchLedger} {call : Call}

theorem carries_addWithdrawals {scriptPubkey : Script} {denom : String} {funds : List Coin}
    (shaped : store.queue.Shaped) (carries : store.queue.Carries ledger)
    (added : addWithdrawals host scriptPubkey denom store funds = .ok after) :
    after.queue.Carries
      (ledger.submit [] (store.withdrawalOutputs scriptPubkey denom funds)) := by
  induction funds generalizing store ledger with
  | nil =>
      obtain rfl := Except.ok.inj added
      have noOutputs : store.withdrawalOutputs scriptPubkey denom [] = [] := by
        unfold Store.withdrawalOutputs
        split <;> rfl
      rw [noOutputs, BatchLedger.submit_nil]
      exact carries
  | cons fund funds ih =>
      rw [addWithdrawals] at added
      split at added
      · rename_i isBridged
        simp only [Outcome.bind_eq_ok] at added
        obtain ⟨middle, addedOne, addedRest⟩ := added
        obtain ⟨-, -, fee, -, -, charged, -⟩ := Store.addWithdrawal_eq_ok addedOne
        obtain ⟨carriesOne, sameFee, sameConfig⟩ :=
          Store.carries_addWithdrawal shaped carries charged addedOne
        have outputsEq : store.withdrawalOutputs scriptPubkey denom (fund :: funds) =
            ⟨asU64 (fund.amount - fee) / store.bitcoinConfig.unitsPerSat, scriptPubkey⟩ ::
              middle.withdrawalOutputs scriptPubkey denom funds := by
          simp [Store.withdrawalOutputs, charged, sameFee, sameConfig, isBridged]
        have carriesRest := ih (Store.shaped_addWithdrawal shaped addedOne) carriesOne addedRest
        rw [BatchLedger.submit_submit] at carriesRest
        rw [outputsEq]
        exact carriesRest
      · rename_i otherDenom
        have outputsEq : store.withdrawalOutputs scriptPubkey denom (fund :: funds) =
            store.withdrawalOutputs scriptPubkey denom funds := by
          simp [Store.withdrawalOutputs, otherDenom]
        rw [outputsEq]
        exact ih shaped carries added

/-- The deposits that a call brings in. -/
def Call.depositInputs (host : Host) (store : Store) : Call → List Input
  | .execute _ env _ (.relayDeposit btcTx _ _ btcVout sigsetIndex dest) =>
      store.depositInputs host env btcTx btcVout sigsetIndex dest
  | _ => []

/-- The withdrawals that a call asks for. -/
def Call.withdrawalOutputs (host : Host) (store : Store) : Call → List TxOut
  | .execute _ _ info (.withdrawToBitcoin btcAddress) =>
      match addressScript host btcAddress with
      | .ok scriptPubkey => store.withdrawalOutputs scriptPubkey
          (getFullBtcDenom store.config.tokenFactoryAddr) info.funds
      | .error _ => []
  | _ => []

/-- What a successful call does to the ledger. -/
def observeBatches (host : Host) (before : Store) (call : Call) (after : Store)
    (ledger : BatchLedger) : BatchLedger :=
  let ledger := ledger.submit (call.depositInputs host before) (call.withdrawalOutputs host before)
  if before.queue.buildingIndex < after.queue.buildingIndex then
    ledger.freeze before.checkpointConfig before.queue.buildingIndex
  else ledger

/-- A checkpoint that the call freezes has room for the reserve, and for so many deposits
and withdrawals. -/
def HasRoom (inputs outputs : Nat) (store : Store) (call : Call) : Prop :=
  call.blockHash ≠ none → store.queue.checkpoints ≠ [] →
    inputs + 1 ≤ store.checkpointConfig.maxInputs ∧ outputs + 2 ≤ store.checkpointConfig.maxOutputs

instance (inputs outputs : Nat) (store : Store) (call : Call) :
    Decidable (HasRoom inputs outputs store call) :=
  inferInstanceAs (Decidable (_ → _ → _))

/-- A call that freezes no checkpoint only adds to the lines. -/
theorem carries_observeBatches (carries : store.queue.Carries ledger)
    (submitted : after.queue.Carries
      (ledger.submit (call.depositInputs host store) (call.withdrawalOutputs host store))) :
    after.queue.Carries (observeBatches host store call after ledger) := by
  have sameIndex : after.queue.buildingIndex = store.queue.buildingIndex :=
    submitted.inputs_length.symm.trans carries.inputs_length
  rw [observeBatches, if_neg (by omega)]
  exact submitted

theorem carries_clockEndBlock {querier : Querier} {env : Env} {hash : Bytes} {response : Response}
    (carries : store.queue.Carries ledger)
    (hasRoom : store.queue.checkpoints ≠ [] →
      1 ≤ store.checkpointConfig.maxInputs ∧ 2 ≤ store.checkpointConfig.maxOutputs)
    (noInputs : call.depositInputs host store = [])
    (noOutputs : call.withdrawalOutputs host store = [])
    (called : clockEndBlock host querier env store hash = .ok response) :
    response.1.queue.Carries (observeBatches host store call response.1 ledger) := by
  obtain ⟨queue, dests, _, begun, offline, punished, taken, -, begunOk, punishedOk, rfl⟩ :=
    clockEndBlock_eq_ok called
  obtain ⟨allow, pushed, steppedOk⟩ := maybeStep_of_beginBlockStep begunOk
  have sameIndex : queue.buildingIndex = store.queue.buildingIndex :=
    (QueueStore.indexes_takePendingCompleted taken).1
  have sameQueue : punished.queue = begun.queue := (outsideRegistry_punishAll punishedOk).sameBridge.queue_eq
  have takenCarries := carries.takePendingCompleted taken
  simp only [observeBatches, noInputs, noOutputs, BatchLedger.submit_nil, sameQueue]
  rcases Store.maybeStep_eq_ok steppedOk with ⟨rfl, -⟩ | ⟨⟨first⟩⟩ | ⟨rollover, -⟩
  · rw [if_neg (by rw [sameIndex]; exact lt_irrefl _)]
    exact takenCarries
  · have stillFirst : ¬ store.queue.buildingIndex < begun.queue.buildingIndex := by
      rw [first.buildingIndex_after]
      exact Nat.not_lt_zero _
    rw [if_neg stillFirst]
    exact first.carries takenCarries
  · have isLater : store.queue.buildingIndex < begun.queue.buildingIndex := by
      rw [rollover.buildingIndex_after, ← sameIndex]
      exact Nat.lt_succ_self _
    have started : store.queue.checkpoints ≠ [] := by
      intro unstarted
      have sameLength := QueueStore.length_takePendingCompleted taken
      rw [rollover.checkpoints_eq, unstarted, List.length_append] at sameLength
      exact absurd sameLength (Nat.succ_ne_zero _)
    obtain ⟨someInput, someOutputs⟩ := hasRoom started
    rw [if_pos isLater, ← sameIndex]
    exact rollover.carries someInput someOutputs takenCarries

/-- Every successful call moves the checkpoints as it moves the ledger. -/
theorem carries_of_call (shaped : store.queue.Shaped) (carries : store.queue.Carries ledger)
    (hasRoom : HasRoom 0 0 store call) (called : (machine host).call store call = .ok after) :
    after.queue.Carries (observeBatches host store call after ledger) := by
  obtain ⟨response, executed, rfl⟩ := executed_of_machine called
  have unchanged (noInputs : call.depositInputs host store = [])
      (noOutputs : call.withdrawalOutputs host store = [])
      (kept : response.1.queue.Carries ledger) :
      response.1.queue.Carries (observeBatches host store call response.1 ledger) := by
    apply carries_observeBatches carries
    rwa [noInputs, noOutputs, BatchLedger.submit_nil]
  cases executed with
  | triggerBeginBlock _ _ _ hash clocked | clockEndBlock _ _ hash clocked =>
      exact carries_clockEndBlock carries (hasRoom (Option.some_ne_none hash)) rfl rfl clocked
  | relayDeposit _ _ _ _ _ _ _ _ _ relayed =>
      exact carries_observeBatches carries (Store.carries_relayDeposit shaped carries relayed)
  | withdrawToBitcoin querier env info btcAddress scriptPubkey scripted added =>
      apply carries_observeBatches carries
      have outputsEq : Call.withdrawalOutputs host store
          (.execute querier env info (.withdrawToBitcoin btcAddress)) =
            store.withdrawalOutputs scriptPubkey
              (getFullBtcDenom store.config.tokenFactoryAddr) info.funds := by
        rw [Call.withdrawalOutputs, scripted]
      rw [outputsEq]
      exact carries_addWithdrawals shaped carries added
  | submitCheckpointSignature _ _ _ _ _ _ _ signed => exact unchanged rfl rfl (carries.sign signed)
  | relayCheckpoint _ _ _ _ _ _ relayed =>
      obtain ⟨-, -, rfl⟩ := Store.relayCheckpoint_eq_ok relayed
      exact unchanged rfl rfl ⟨carries.inputs_length, carries.outputs_length, carries.unstarted,
        carries.building, carries.frozen⟩
  | addValidators =>
      refine unchanged rfl rfl ?_
      rw [(outsideRegistry_saveValidators _).sameBridge.queue_eq]
      exact carries
  | setSignatoryKey _ _ _ _ saved =>
      refine unchanged rfl rfl ?_
      rw [(outsideRegistry_setSignatoryKey saved).sameBridge.queue_eq]
      exact carries
  | updateConfig | updateCheckpointConfig | updateBitcoinConfig | updateHeaderConfig
  | relayHeaders | submitRecoverySignature | registerDenom | changeBtcDenomOwner =>
      exact unchanged rfl rfl carries

/-- Only a block freezes a checkpoint. -/
theorem block_of_buildingIndex_lt
    (called : (machine host).call store call = .ok after)
    (frozen : store.queue.buildingIndex < after.queue.buildingIndex) :
    call.blockHash ≠ none ∧ store.queue.checkpoints ≠ [] := by
  cases termsStep_of_call called with
  | kept terms_eq =>
      have sameIndex : after.queue.buildingIndex = store.queue.buildingIndex :=
        congrArg Window.last terms_eq
      omega
  | first newest starts empty _ terms_eq =>
      have isFirst : after.queue.buildingIndex = 0 := congrArg Window.last terms_eq
      omega
  | pushed _ _ starts pruned pruned_lt =>
      refine ⟨starts.isClock, fun empty => ?_⟩
      rw [empty] at pruned_lt
      exact absurd pruned_lt (Nat.not_lt_zero pruned)

/-- The lines never skip a batch that could have been larger. -/
theorem since_observeBatches {inputs outputs : Nat} {early : BatchLedger}
    (frozen : store.queue.buildingIndex < after.queue.buildingIndex →
      inputs + 1 ≤ store.checkpointConfig.maxInputs ∧
        outputs + 2 ≤ store.checkpointConfig.maxOutputs)
    (sinceInputs : BatchLine.Since inputs early.inputs ledger.inputs)
    (sinceOutputs : BatchLine.Since outputs early.outputs ledger.outputs) :
    let late := observeBatches host store call after ledger
    BatchLine.Since inputs early.inputs late.inputs ∧
      BatchLine.Since outputs early.outputs late.outputs := by
  have moreInputs := sinceInputs.submit (call.depositInputs host store)
  have moreOutputs := sinceOutputs.submit (call.withdrawalOutputs host store)
  unfold observeBatches
  dsimp only
  split
  · rename_i isFrozen
    obtain ⟨inputRoom, outputRoom⟩ := frozen isFrozen
    exact ⟨moreInputs.take (by omega), moreOutputs.take (by omega)⟩
  · exact ⟨moreInputs, moreOutputs⟩

section Runs

variable (host) (start : Store)

/-- The ledger of the successful calls of a run. -/
def runBatches (calls : List Call) : BatchLedger :=
  (((machine host).observed (observeBatches host)).run (start, .empty) calls).2

variable {host start}

theorem carries_instantiate (info : MessageInfo) (msg : InstantiateMsg) :
    (instantiate host info msg).queue.Carries .empty where
  inputs_length := rfl
  outputs_length := rfl
  unstarted := fun _ => ⟨rfl, rfl⟩
  building := fun found => absurd found (Window.item_ne_of_empty rfl)
  frozen := fun _ found => absurd found (Window.item_ne_of_empty rfl)

theorem run_carries {calls : List Call} (shaped : start.queue.Shaped)
    (carries : start.queue.Carries .empty)
    (permitted : (machine host).Permitted ((machine host).OnSuccess (HasRoom 0 0)) start calls) :
    ((machine host).run start calls).queue.Shaped ∧
      ((machine host).run start calls).queue.Carries (runBatches host start calls) := by
  refine CallMachine.observed_invariant
    (fun (store : Store) (ledger : BatchLedger) =>
      store.queue.Shaped ∧ store.queue.Carries ledger) ?_ ⟨shaped, carries⟩ permitted
  rintro store ledger call after ⟨shapedHere, carriesHere⟩ allowed called
  exact ⟨(effect_of_call called).shaped shapedHere,
    carries_of_call shapedHere carriesHere (allowed after called) called⟩

theorem runBatches_append (before later : List Call) :
    runBatches host start (before ++ later) =
      (((machine host).observed (observeBatches host)).run
        ((machine host).run start before, runBatches host start before) later).2 := by
  rw [runBatches, CallMachine.run_append, ← CallMachine.observed_run_fst (start, BatchLedger.empty)]
  rfl

theorem run_since {inputs outputs : Nat} (early : BatchLedger) {calls : List Call}
    (permitted : (machine host).Permitted ((machine host).OnSuccess (HasRoom inputs outputs)) start
      calls) :
    let late := (((machine host).observed (observeBatches host)).run (start, early) calls).2
    BatchLine.Since inputs early.inputs late.inputs ∧
      BatchLine.Since outputs early.outputs late.outputs := by
  refine CallMachine.observed_invariant (fun (_ : Store) (ledger : BatchLedger) =>
    BatchLine.Since inputs early.inputs ledger.inputs ∧
      BatchLine.Since outputs early.outputs ledger.outputs) ?_ ⟨.refl _, .refl _⟩ permitted
  rintro store ledger call after ⟨sinceInputs, sinceOutputs⟩ allowed called
  refine since_observeBatches (fun frozen => ?_) sinceInputs sinceOutputs
  obtain ⟨isBlock, started⟩ := block_of_buildingIndex_lt called frozen
  exact allowed after called isBlock started

end Runs

end Contract

/-- In every run whose frozen checkpoints have room for the reserve, the deposits and
withdrawals that were accepted are those of the batches and those that wait, each as often
as it was accepted, and the transactions of the checkpoints carry exactly these. -/
theorem Contract.run_ledger_carried (host : Host) (info : MessageInfo) (msg : InstantiateMsg)
    {calls : List Call}
    (permitted : (machine host).Permitted ((machine host).OnSuccess (HasRoom 0 0))
      (instantiate host info msg) calls) :
    let store := (machine host).run (instantiate host info msg) calls
    let ledger := runBatches host (instantiate host info msg) calls
    ledger.inputs.submitted.Perm (ledger.inputs.batches.flatten ++ ledger.inputs.waiting) ∧
      ledger.outputs.submitted.Perm (ledger.outputs.batches.flatten ++ ledger.outputs.waiting) ∧
      store.queue.Carries ledger :=
  ⟨BatchLine.conserved _, BatchLine.conserved _,
    (run_carries (.empty rfl rfl) (carries_instantiate info msg) permitted).2⟩

namespace Sample

/-- A deposit is frozen and signed, and a withdrawal of half of it waits. -/
def waitingCalls : List Contract.Call := setupCalls ++ [
  signFirst,
  executeAt 1420 (.updateBitcoinConfig { BitcoinConfig.default with minWithdrawalCheckpoints := 0 }),
  .execute querier (env 1430)
    { sender := "a", funds := [⟨"factory/factory/obtc", 50000000000⟩] } (.withdrawToBitcoin "b")]

/-- The block that freezes it. -/
def carryingBlock : Contract.Call :=
  .clockEndBlock querier (env (1400 + MAX_CHECKPOINT_INTERVAL)) [3]

end Sample

theorem Contract.run_ledger_carried_sample :
    let start := instantiate Sample.host Sample.info Sample.instantiateMsg
    let calls := Sample.waitingCalls ++ [Sample.carryingBlock]
    let store := (machine Sample.host).run start calls
    let ledger := runBatches Sample.host start calls
    ledger.inputs.batches.map List.length = [1, 0] ∧
      ledger.outputs.batches.map List.length = [0, 1] ∧
      ledger.inputs.submitted.Perm (ledger.inputs.batches.flatten ++ ledger.inputs.waiting) ∧
      ledger.outputs.submitted.Perm (ledger.outputs.batches.flatten ++ ledger.outputs.waiting) ∧
      store.queue.Carries ledger :=
  ⟨by decide +kernel, by decide +kernel, @run_ledger_carried Sample.host Sample.info
    Sample.instantiateMsg (Sample.waitingCalls ++ [Sample.carryingBlock]) (by decide +kernel)⟩

/-- A run that goes on with further calls adds batches to those of the ledger, and the
transactions carry the batches at every time in between. -/
theorem Contract.run_carries_extended {host : Host} {info : MessageInfo} {msg : InstantiateMsg}
    {before later : List Call}
    (permitted : (machine host).Permitted ((machine host).OnSuccess (HasRoom 0 0))
      (instantiate host info msg) (before ++ later)) :
    let start := instantiate host info msg
    let early := runBatches host start before
    let late := runBatches host start (before ++ later)
    ((machine host).run start before).queue.Carries early ∧
      early.inputs.batches <+: late.inputs.batches ∧
      early.outputs.batches <+: late.outputs.batches := by
  intro start early late
  obtain ⟨permittedBefore, permittedLater⟩ := CallMachine.permitted_append.mp permitted
  have since := run_since early permittedLater
  rw [← runBatches_append] at since
  exact ⟨(run_carries (.empty rfl rfl) (carries_instantiate info msg) permittedBefore).2,
    since.1.batches_extended, since.2.batches_extended⟩

/-- What waits at some time of a run is carried by the checkpoints frozen since, once they
had room for everything that waited then or was accepted since.  Their transactions carry
the batches from the time when they were frozen. -/
theorem Contract.run_waiting_carried (host : Host) (info : MessageInfo) (msg : InstantiateMsg)
    (inputs outputs : Nat) {before later : List Call}
    (permitted : (machine host).Permitted ((machine host).OnSuccess (HasRoom inputs outputs))
      (instantiate host info msg) (before ++ later)) :
    let start := instantiate host info msg
    let store := (machine host).run start before
    let early := runBatches host start before
    let late := runBatches host start (before ++ later)
    let frozen := ((machine host).run start (before ++ later)).queue.buildingIndex -
      store.queue.buildingIndex
    (∀ middle, middle <+: later →
      ((machine host).run start (before ++ middle)).queue.Carries
          (runBatches host start (before ++ middle)) ∧
        (runBatches host start (before ++ middle)).inputs.batches <+: late.inputs.batches ∧
        (runBatches host start (before ++ middle)).outputs.batches <+: late.outputs.batches) ∧
      (early.inputs.waiting.length +
          (late.inputs.submitted.length - early.inputs.submitted.length) ≤ inputs * frozen →
        early.inputs.waiting.Subperm
          (late.inputs.batches.drop store.queue.buildingIndex).flatten) ∧
      (early.outputs.waiting.length +
          (late.outputs.submitted.length - early.outputs.submitted.length) ≤ outputs * frozen →
        early.outputs.waiting.Subperm
          (late.outputs.batches.drop store.queue.buildingIndex).flatten) := by
  intro start store early late frozen
  have hasRoom : (machine host).Permitted ((machine host).OnSuccess (HasRoom 0 0)) start
      (before ++ later) :=
    permitted.imp fun _ _ allowed after called isBlock started => by
      have room := allowed after called isBlock started
      omega
  have carries := (run_carries_extended hasRoom).1
  have lateCarries := (run_carries (.empty rfl rfl) (carries_instantiate info msg) hasRoom).2
  have since := run_since early (CallMachine.permitted_append.mp permitted).2
  rw [← runBatches_append] at since
  refine ⟨?_, ?_, ?_⟩
  · rintro middle ⟨rest, rfl⟩
    have split := run_carries_extended (by rwa [List.append_assoc] :
      (machine host).Permitted _ start ((before ++ middle) ++ rest))
    rwa [List.append_assoc before middle rest] at split
  · intro enough
    rw [← carries.inputs_length]
    apply since.1.subperm
    rwa [lateCarries.inputs_length, carries.inputs_length]
  · intro enough
    rw [← carries.outputs_length]
    apply since.2.subperm
    rwa [lateCarries.outputs_length, carries.outputs_length]

theorem Contract.run_waiting_carried_sample :
    let start := instantiate Sample.host Sample.info Sample.instantiateMsg
    let early := runBatches Sample.host start Sample.waitingCalls
    let late := runBatches Sample.host start (Sample.waitingCalls ++ [Sample.carryingBlock])
    early.outputs.waiting ≠ [] ∧
      ((machine Sample.host).run start
        (Sample.waitingCalls ++ [Sample.carryingBlock])).queue.Carries late ∧
      early.outputs.waiting.Subperm (late.outputs.batches.drop
        ((machine Sample.host).run start Sample.waitingCalls).queue.buildingIndex).flatten := by
  have waiting := @run_waiting_carried Sample.host Sample.info Sample.instantiateMsg 0 1
    Sample.waitingCalls [Sample.carryingBlock] (by decide +kernel)
  exact ⟨by decide +kernel, (waiting.1 _ (List.prefix_refl _)).1, waiting.2.2 (by decide +kernel)⟩

end CwBitcoin
