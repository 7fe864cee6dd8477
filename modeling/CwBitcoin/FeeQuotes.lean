import CwBitcoin.CheckpointTerms
import CwBitcoin.Queries

/-!
# Quoted fees

The contract quotes the fee of a deposit to a checkpoint, and of a withdrawal into it.
The terms of a checkpoint do not change, and so a quote is what is charged later on, as
long as the owner leaves the fee factor and the unit of the bridged coin.
-/

namespace CwBitcoin

namespace Contract

variable {host : Host} {store after : Store} {call : Call} {index : Nat}
  {terms : Checkpoint.Terms}

/-- A checkpoint that was started with these terms is all that can be found at an index. -/
structure HoldsTerms (index : Nat) (terms : Checkpoint.Terms) (store : Store) : Prop where
  nonempty : store.queue.checkpoints ≠ []
  le_building : index ≤ store.queue.buildingIndex
  same : ∀ {other}, store.queue.terms.item index = some other → other = terms

theorem TermsStep.holdsTerms (step : TermsStep host store call after)
    (holds : HoldsTerms index terms store) : HoldsTerms index terms after := by
  have nonempty_iff (queue : QueueStore) : queue.checkpoints ≠ [] ↔ 0 < queue.terms.items.length := by
    rw [QueueStore.terms_length, List.length_pos_iff]
  cases step with
  | kept terms_eq =>
      have lastEq : after.queue.buildingIndex = store.queue.buildingIndex :=
        congrArg Window.last terms_eq
      refine ⟨?_, lastEq.symm ▸ holds.le_building, ?_⟩
      · rw [nonempty_iff, terms_eq, ← nonempty_iff]
        exact holds.nonempty
      · rw [terms_eq]
        exact holds.same
  | first _ _ empty => exact absurd empty holds.nonempty
  | pushed building newest starts pruned pruned_lt aligned _ _ _ _ _ terms_eq =>
      have lengthEq := QueueStore.terms_length store.queue
      have alignedTerms : store.queue.terms.Aligned := by
        rw [Window.Aligned, lengthEq]
        exact aligned.window
      have lastEq : after.queue.buildingIndex = store.queue.buildingIndex + 1 :=
        congrArg Window.last terms_eq
      have le_building := holds.le_building
      refine ⟨?_, by omega, fun {other} found => ?_⟩
      · rw [nonempty_iff, terms_eq]
        simp only [Window.push, Window.drop, List.length_drop, List.length_append,
          List.length_singleton]
        omega
      · rw [terms_eq] at found
        exact holds.same (Window.item_of_push_drop alignedTerms (by omega) le_building found)

theorem holdsTerms_of_run {early : Checkpoint} (gotEarly : store.queue.get index = .ok early)
    (calls : List Call) : HoldsTerms index early.terms ((machine host).run store calls) := by
  obtain ⟨aligned, foundEarly⟩ := QueueStore.get_eq_ok.mp gotEarly
  have start : HoldsTerms index early.terms store := by
    refine ⟨fun empty => Window.item_ne_of_empty empty foundEarly,
      Window.le_last_of_item aligned.window foundEarly, fun {other} found => ?_⟩
    rw [QueueStore.terms_item, foundEarly] at found
    exact (Option.some.inj found).symm
  exact CallMachine.run_invariant_all (HoldsTerms index early.terms)
    (fun _ _ _ holds called => (termsStep_of_call called).holdsTerms holds) start calls

/-- What is found at an index keeps its terms during a run. -/
theorem terms_eq_of_run {calls : List Call} {early late : Checkpoint}
    (gotEarly : store.queue.get index = .ok early)
    (gotLate : ((machine host).run store calls).queue.get index = .ok late) :
    late.terms = early.terms := by
  obtain ⟨-, foundLate⟩ := QueueStore.get_eq_ok.mp gotLate
  exact (holdsTerms_of_run gotEarly calls).same (by rw [QueueStore.terms_item, foundLate]; rfl)

end Contract

/-- The parameters with which fees are charged are the same. -/
structure Store.SamePricing (early late : Store) : Prop where
  userFeeFactor_eq : late.checkpointConfig.userFeeFactor = early.checkpointConfig.userFeeFactor
  unitsPerSat_eq : late.bitcoinConfig.unitsPerSat = early.bitcoinConfig.unitsPerSat

theorem Store.SamePricing.calcMinimumFees_eq {early late : Store} (same : SamePricing early late)
    (vsize feeRate : Nat) :
    late.calcMinimumFees vsize feeRate = early.calcMinimumFees vsize feeRate := by
  simp only [calcMinimumFees, same.userFeeFactor_eq, same.unitsPerSat_eq]

section Deposits

variable {host : Host} {store after : Store} {env : Env}

theorem Store.queryDepositFees_eq (store : Store) (index : Option Nat) :
    store.queryDepositFees index = store.depositFee (index.getD store.queue.buildingIndex) := rfl

/-- The fee of a deposit depends on the terms of the checkpoint. -/
theorem Store.SamePricing.depositFee_eq {early late : Store} {index : Nat}
    {quoted charged : Checkpoint} (same : SamePricing early late)
    (gotQuoted : early.queue.get index = .ok quoted) (gotCharged : late.queue.get index = .ok charged)
    (sameTerms : charged.terms = quoted.terms) :
    late.depositFee index = early.depositFee index := by
  have sameRate : charged.feeRate = quoted.feeRate := congrArg Checkpoint.Terms.feeRate sameTerms
  have sameSigset : charged.sigset = quoted.sigset := congrArg Checkpoint.Terms.sigset sameTerms
  simp only [depositFee, gotQuoted, gotCharged, Outcome.ok_bind, calcMinimumDepositFees,
    same.calcMinimumFees_eq, sameRate, sameSigset]

/-- A relayed deposit is recovered without a charge when it has expired, and is otherwise
credited with its value less the fee. -/
theorem Store.charged_of_relayDeposit {btcTx : Transaction} {btcHeight btcVout sigsetIndex : Nat}
    {btcProof : PartialMerkleTree} {dest : Dest}
    (relayed : store.relayDeposit host env btcTx btcHeight btcProof btcVout sigsetIndex dest =
      .ok after) :
    ∃ output checkpoint, btcTx.output[btcVout]? = some output ∧
      store.queue.get sigsetIndex = .ok checkpoint ∧
      if checkpoint.sigset.createTime + store.bitcoinConfig.maxDepositAge < env.seconds then
        after.queue = store.queue ∧ after.feePool = store.feePool
      else ∃ fee coin, store.depositFee sigsetIndex = .ok fee ∧
        coin.amount + fee = output.value * store.bitcoinConfig.unitsPerSat ∧
        after.queue.pending = store.queue.pending ++ [(dest, coin)] ∧
        after.feePool = store.feePool + asI64 fee := by
  simp only [relayDeposit, Outcome.bind_eq_ok, Outcome.getOr_fail_eq_ok,
    Outcome.checkedAdd_eq_ok] at relayed
  obtain ⟨txid, -, -, -, output, outputAt, checkpoint, got, script, -, -, -, -, -, timeout,
    ⟨-, rfl⟩, -, -, relayed⟩ := relayed
  refine ⟨output, checkpoint, outputAt, got, ?_⟩
  by_cases expired : checkpoint.sigset.createTime + store.bitcoinConfig.maxDepositAge < env.seconds
  · rw [if_pos expired] at relayed ⊢
    simp only [Outcome.bind_eq_ok, Outcome.pure_eq_ok] at relayed
    obtain ⟨building, -, recoveryTxs, -, rfl⟩ := relayed
    exact ⟨rfl, rfl⟩
  · rw [if_neg expired] at relayed ⊢
    simp only [Outcome.bind_eq_ok] at relayed
    obtain ⟨input, made, credited⟩ := relayed
    obtain ⟨-, amountEq, sizeEq, -, -⟩ := Input.new_eq_ok made
    obtain ⟨older, building, fee, coin, split, -, ⟨size, sized, charged⟩, -, total, rfl⟩ :=
      creditDeposit_eq_ok credited
    rw [Input.estVsize, sizeEq] at sized
    rw [amountEq] at total
    refine ⟨fee, coin, ?_, total, QueueStore.flatMap_replaceBuilding _ split rfl, rfl⟩
    simp only [depositFee, Outcome.bind_eq_ok]
    exact ⟨checkpoint, got, size, sized, charged⟩

end Deposits

/-- Whatever calls come in between, a deposit to a checkpoint is charged what was quoted
for this checkpoint, unless the fee factor or the unit has been changed.  The fee pool
counts the quote as a signed number.  A deposit that has expired is recovered, and charged
nothing. -/
theorem Contract.run_deposit_quoted (host : Host) (early late : Store) (calls : List Call)
    (isLate : (machine host).run early calls = late) (samePricing : early.SamePricing late)
    (index : Option Nat) (quote : Nat) (quoted : early.queryDepositFees index = .ok quote)
    (querier : Querier) (env : Env) (sender : MessageInfo) (btcTx : Transaction) (btcHeight : Nat)
    (btcProof : PartialMerkleTree) (btcVout : Nat) (dest : Dest) (after : Store)
    (relayed : (machine host).call late (.execute querier env sender (.relayDeposit btcTx btcHeight
      btcProof btcVout (index.getD early.queue.buildingIndex) dest)) = .ok after) :
    ∃ output checkpoint, btcTx.output[btcVout]? = some output ∧
      late.queue.get (index.getD early.queue.buildingIndex) = .ok checkpoint ∧
      (checkpoint.sigset.createTime + late.bitcoinConfig.maxDepositAge < env.seconds →
        after.queue = late.queue ∧ after.feePool = late.feePool) ∧
      (env.seconds ≤ checkpoint.sigset.createTime + late.bitcoinConfig.maxDepositAge →
        ∃ coin, coin.amount + quote = output.value * late.bitcoinConfig.unitsPerSat ∧
          after.queue.pending = late.queue.pending ++ [(dest, coin)] ∧
          after.feePool = late.feePool + asI64 quote ∧
          (quote < 2 ^ 63 → after.feePool = late.feePool + quote)) := by
  simp only [machine, Contract.call, execute, Outcome.map_eq_ok, Outcome.bind_eq_ok,
    Outcome.pure_eq_ok] at relayed
  obtain ⟨_, ⟨relayedStore, relayedOk, rfl⟩, rfl⟩ := relayed
  obtain ⟨output, checkpoint, outputAt, gotLate, outcome⟩ := Store.charged_of_relayDeposit relayedOk
  refine ⟨output, checkpoint, outputAt, gotLate, fun expired => ?_, fun inTime => ?_⟩
  · rwa [if_pos expired] at outcome
  · rw [if_neg (Nat.not_lt.mpr inTime)] at outcome
    obtain ⟨fee, coin, charged, total, pendingEq, feePoolEq⟩ := outcome
    rw [Store.queryDepositFees_eq] at quoted
    obtain ⟨asked, gotEarly, -⟩ := Outcome.bind_eq_ok.mp quoted
    have sameTerms : checkpoint.terms = asked.terms := terms_eq_of_run gotEarly (isLate ▸ gotLate)
    have sameFee := samePricing.depositFee_eq gotEarly gotLate sameTerms
    obtain rfl := Except.ok.inj (charged.symm.trans (sameFee.trans quoted))
    refine ⟨coin, total, pendingEq, feePoolEq, fun fits => ?_⟩
    rw [feePoolEq, asI64_of_lt fits]

namespace Sample

/-- The first checkpoint is under construction. -/
def quotedStore : Store := (Contract.machine host).run initial (setupCalls.take 5)

def laterDepositTx : Transaction := depositTo 200000 (utf8 "a")

/-- The first checkpoint has been frozen, and another deposit to it enters a block. -/
def laterStore : Store :=
  (Contract.machine host).run quotedStore (setupCalls.drop 5 ++
    [executeAt 1410 (.updateHeaderConfig (blockOf (laterDepositTx.txid host)))])

end Sample

theorem Contract.run_deposit_quoted_sample :
    Sample.quotedStore.queryDepositFees none = .ok 23463000000 ∧
      ∃ coin : Coin, coin.amount + 23463000000 = 200000 * 1000000 ∧
        ((machine Sample.host).next Sample.laterStore
          (Sample.relayDepositAt 1420 7 Sample.laterDepositTx "a")).queue.pending =
            Sample.laterStore.queue.pending ++ [(.address "a", coin)] ∧
        ((machine Sample.host).next Sample.laterStore
          (Sample.relayDepositAt 1420 7 Sample.laterDepositTx "a")).feePool =
            Sample.laterStore.feePool + 23463000000 := by
  have quoted : Sample.quotedStore.queryDepositFees none = .ok 23463000000 := by decide +kernel
  have relayed : (machine Sample.host).call Sample.laterStore
      (Sample.relayDepositAt 1420 7 Sample.laterDepositTx "a") =
        .ok ((machine Sample.host).next Sample.laterStore
          (Sample.relayDepositAt 1420 7 Sample.laterDepositTx "a")) := by
    decide +kernel
  obtain ⟨output, checkpoint, outputAt, got, -, credited⟩ := run_deposit_quoted Sample.host
    Sample.quotedStore Sample.laterStore _ rfl ⟨by decide +kernel, by decide +kernel⟩ none _ quoted
    Sample.querier (Sample.env 1420) Sample.info Sample.laterDepositTx 7 _ 0 (.address "a") _ relayed
  have isFirst : Sample.laterStore.queue.get 0 = .ok (Sample.checkpointAt Sample.laterStore 0) := by
    decide +kernel
  obtain rfl := Except.ok.inj (isFirst.symm.trans got)
  have value : output.value = 200000 := by
    have found : Sample.laterDepositTx.output[0]?.map TxOut.value = some 200000 := by decide +kernel
    rw [outputAt] at found
    exact Option.some.inj found
  have units : Sample.laterStore.bitcoinConfig.unitsPerSat = 1000000 := by decide +kernel
  obtain ⟨coin, total, pendingEq, -, pool⟩ := credited (by decide +kernel)
  rw [value, units] at total
  exact ⟨quoted, coin, total, pendingEq, pool (by decide)⟩

section Withdrawals

variable {host : Host} {store after : Store} {scriptPubkey : Script} {fee amount : Nat}
  {building : Checkpoint}

theorem Store.withdrawn_of_addWithdrawal_eq_ok (read : store.queue.building = .ok building)
    (charged : store.withdrawalFee scriptPubkey = .ok fee)
    (added : store.addWithdrawal host scriptPubkey amount = .ok after) :
    fee ≤ amount ∧ after.feePool = store.feePool + asI64 fee ∧
      after.bitcoinConfig = store.bitcoinConfig ∧ after.withdrawalFee scriptPubkey = .ok fee ∧
      ∃ next, after.queue.building = .ok next ∧ next.mainTx.output = building.mainTx.output ++
        [⟨asU64 (amount - fee) / store.bitcoinConfig.unitsPerSat, scriptPubkey⟩] := by
  obtain ⟨older, collecting, paid, split, ⟨tx, first⟩, paidOk, -, covered, -, rfl⟩ :=
    addWithdrawal_eq_ok added
  obtain rfl := Except.ok.inj (charged.symm.trans paidOk)
  obtain ⟨aligned, others, splitRead⟩ := QueueStore.building_eq_ok.mp read
  obtain ⟨-, sameLast⟩ := List.append_inj' (split.symm.trans splitRead) rfl
  obtain rfl := List.singleton_inj.mp sameLast
  have readAfter {replacement : Checkpoint} : QueueStore.building
      { store.queue with checkpoints := older ++ [replacement] } = .ok replacement := by
    refine QueueStore.building_eq_ok.mpr ⟨?_, older, rfl⟩
    rw [← QueueStore.put_building aligned split]
    exact aligned.put
  refine ⟨covered, rfl, rfl, ?_, _, readAfter, ?_⟩
  · simp only [withdrawalFee, read, Outcome.ok_bind] at charged
    simp only [withdrawalFee, readAfter, Outcome.ok_bind]
    exact charged
  · rw [Checkpoint.mainTx_withdrawn first]

/-- The coins of the bridged denomination. -/
def bridgedFunds (denom : String) (funds : List Coin) : List Coin :=
  funds.filter fun fund => fund.denom = denom

/-- Each bridged coin is charged the same fee, and adds an output. -/
theorem Contract.withdrawn_of_addWithdrawals {denom : String} {funds : List Coin}
    (read : store.queue.building = .ok building)
    (charged : store.withdrawalFee scriptPubkey = .ok fee)
    (added : addWithdrawals host scriptPubkey denom store funds = .ok after) :
    (∀ fund ∈ bridgedFunds denom funds, fee ≤ fund.amount) ∧
      after.feePool = store.feePool + (bridgedFunds denom funds).length * asI64 fee ∧
      ∃ next, after.queue.building = .ok next ∧ next.mainTx.output = building.mainTx.output ++
        (bridgedFunds denom funds).map fun fund =>
          ⟨asU64 (fund.amount - fee) / store.bitcoinConfig.unitsPerSat, scriptPubkey⟩ := by
  induction funds generalizing store building with
  | nil =>
      obtain rfl := Except.ok.inj added
      exact ⟨nofun, by simp [bridgedFunds], building, read, by simp [bridgedFunds]⟩
  | cons fund funds ih =>
      rw [addWithdrawals] at added
      split at added
      · rename_i isBridged
        simp only [Outcome.bind_eq_ok] at added
        obtain ⟨middle, addedOne, addedRest⟩ := added
        obtain ⟨covered, poolOne, sameConfig, chargedNext, next, readNext, outputOne⟩ :=
          Store.withdrawn_of_addWithdrawal_eq_ok read charged addedOne
        obtain ⟨coveredRest, poolRest, last, readLast, outputRest⟩ :=
          ih readNext chargedNext addedRest
        have bridgedEq : bridgedFunds denom (fund :: funds) = fund :: bridgedFunds denom funds := by
          simp [bridgedFunds, isBridged]
        rw [bridgedEq]
        refine ⟨List.forall_mem_cons.mpr ⟨covered, coveredRest⟩, ?_, last, readLast, ?_⟩
        · rw [poolRest, poolOne, List.length_cons, Nat.cast_succ]
          ring
        · rw [outputRest, outputOne, sameConfig, List.append_assoc, List.map_cons]
          rfl
      · rename_i otherDenom
        have bridgedEq : bridgedFunds denom (fund :: funds) = bridgedFunds denom funds := by
          simp [bridgedFunds, otherDenom]
        rw [bridgedEq]
        exact ih read charged added

end Withdrawals

/-- In every run a withdrawal is charged, for each coin, what was quoted at any time since
the checkpoint under construction was started, unless the fee factor or the unit has been
changed.  The outputs are worth the low 64 bits of the rest, which is all of it when it
fits, and the fee pool counts the quote as a signed number. -/
theorem Contract.run_withdrawal_quoted (host : Host) (info : MessageInfo) (msg : InstantiateMsg)
    (before calls : List Call) (early late : Store)
    (isEarly : (machine host).run (instantiate host info msg) before = early)
    (isLate : (machine host).run early calls = late) (samePricing : early.SamePricing late)
    (address : String) (index : Option Nat) (quote : Nat)
    (quoted : early.queryWithdrawalFees host address index = .ok quote)
    (stillBuilding : late.queue.buildingIndex = index.getD early.queue.buildingIndex)
    (querier : Querier) (env : Env) (sender : MessageInfo) (after : Store)
    (withdrawn : (machine host).call late
      (.execute querier env sender (.withdrawToBitcoin address)) = .ok after) :
    let bridged := bridgedFunds (getFullBtcDenom late.config.tokenFactoryAddr) sender.funds
    ∃ scriptPubkey building next, host.addressScript address = .ok scriptPubkey ∧
      late.queue.building = .ok building ∧ after.queue.building = .ok next ∧
      (∀ fund ∈ bridged, quote ≤ fund.amount) ∧
      next.mainTx.output = building.mainTx.output ++ bridged.map (fun fund =>
        ⟨asU64 (fund.amount - quote) / late.bitcoinConfig.unitsPerSat, scriptPubkey⟩) ∧
      ((∀ fund ∈ bridged, fund.amount - quote < 2 ^ 64) →
        next.mainTx.output = building.mainTx.output ++ bridged.map (fun fund =>
          ⟨(fund.amount - quote) / late.bitcoinConfig.unitsPerSat, scriptPubkey⟩)) ∧
      after.feePool = late.feePool + bridged.length * asI64 quote ∧
      (quote < 2 ^ 63 → after.feePool = late.feePool + bridged.length * quote) := by
  intro bridged
  simp only [machine, Contract.call, execute, withdrawToBitcoin, Outcome.map_eq_ok,
    Outcome.bind_eq_ok, Outcome.pure_eq_ok] at withdrawn
  obtain ⟨_, ⟨scriptPubkey, scripted, added, addedOk, rfl⟩, rfl⟩ := withdrawn
  simp only [Store.queryWithdrawalFees, Store.getCheckpoint, scripted, Outcome.bind_eq_ok,
    Outcome.ok_bind] at quoted
  obtain ⟨asked, gotEarly, quoted⟩ := quoted
  have shaped : late.queue.Shaped := by
    have reached := run_shaped host info msg (before ++ calls)
    rwa [CallMachine.run_append, isEarly, isLate] at reached
  obtain ⟨building, read⟩ : ∃ building, late.queue.building = .ok building := by
    have nonempty : late.queue.checkpoints ≠ [] := isLate ▸ (holdsTerms_of_run gotEarly calls).nonempty
    obtain ⟨older, building, split⟩ :=
      (List.eq_nil_or_concat late.queue.checkpoints).resolve_left nonempty
    rw [List.concat_eq_append] at split
    exact ⟨building, QueueStore.building_eq_ok.mpr
      ⟨(shaped.ordered_of_split split).aligned, older, split⟩⟩
  have gotLate : late.queue.get (index.getD early.queue.buildingIndex) = .ok building :=
    stillBuilding ▸ read
  have sameTerms : building.terms = asked.terms := terms_eq_of_run gotEarly (isLate ▸ gotLate)
  have sameRate : building.feeRate = asked.feeRate :=
    congrArg Checkpoint.Terms.feeRate sameTerms
  have charged : late.withdrawalFee scriptPubkey = .ok quote := by
    simp only [Store.withdrawalFee, read, Outcome.ok_bind, Store.calcMinimumWithdrawalFees,
      samePricing.calcMinimumFees_eq, sameRate]
    exact quoted
  obtain ⟨covered, pool, next, readNext, outputs⟩ :=
    withdrawn_of_addWithdrawals read charged addedOk
  have isScript : host.addressScript address = .ok scriptPubkey := by
    unfold addressScript at scripted
    split at scripted
    · rename_i found
      rw [found, Except.ok.inj scripted]
    · cases scripted
  refine ⟨scriptPubkey, building, next, isScript, read, readNext, covered, outputs,
    fun fits => ?_, pool, fun fits => ?_⟩
  · rw [outputs]
    congr 1
    apply List.map_congr_left
    intro fund member
    rw [asU64, Nat.mod_eq_of_lt (fits fund member)]
  · rw [pool, asI64_of_lt fits]

namespace Sample

/-- The second checkpoint is under construction, and withdrawals are possible. -/
def quotedCalls : List Contract.Call := setupCalls ++ [
  signFirst,
  executeAt 1420 (.updateBitcoinConfig
    { BitcoinConfig.default with minWithdrawalCheckpoints := 0 })]

end Sample

theorem Contract.run_withdrawal_quoted_sample :
    let early := (machine Sample.host).run
      (instantiate Sample.host Sample.info Sample.instantiateMsg) Sample.quotedCalls
    let late := (machine Sample.host).run early [.clockEndBlock Sample.querier (Sample.env 1430) [3]]
    let sender : MessageInfo :=
      { sender := "a", funds := [⟨"factory/factory/obtc", 9000000001⟩, ⟨"orai", 5⟩] }
    let after := (machine Sample.host).next late
      (.execute Sample.querier (Sample.env 1440) sender (.withdrawToBitcoin "b"))
    early.queryWithdrawalFees Sample.host "b" none = .ok 1782000000 ∧
      after.feePool = late.feePool + 1782000000 := by
  intro early late sender after
  have quoted : early.queryWithdrawalFees Sample.host "b" none = .ok 1782000000 := by
    decide +kernel
  have withdrawn : (machine Sample.host).call late
      (.execute Sample.querier (Sample.env 1440) sender (.withdrawToBitcoin "b")) = .ok after := by
    decide +kernel
  obtain ⟨_, _, _, -, -, -, -, -, -, -, pool⟩ := run_withdrawal_quoted Sample.host Sample.info
    Sample.instantiateMsg Sample.quotedCalls _ early late rfl rfl
    ⟨by decide +kernel, by decide +kernel⟩ "b" none _ quoted (by decide +kernel)
    Sample.querier (Sample.env 1440) sender after withdrawn
  refine ⟨quoted, (pool (by decide)).trans ?_⟩
  decide +kernel

end CwBitcoin
