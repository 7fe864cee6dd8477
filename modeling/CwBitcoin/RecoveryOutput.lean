import CwBitcoin.ContractSteps

/-!
# The output of a recovery transaction

The fee of a recovery transaction is deducted from its only output.  When the
output cannot pay the fee and stay above the dust limit, it is removed, and the
transaction is stored without any output.
-/

namespace CwBitcoin

namespace BitcoinTx

/-- A single output pays the whole fee, or is removed. -/
theorem deductFee_single {host : Host} {tx : BitcoinTx} {out : TxOut} {fee : Nat}
    (single : tx.output = [out]) (charged : fee ≠ 0) (inRange : fee < 2 ^ 64) :
    tx.deductFee host fee = .ok { tx with
      output := if fee < out.value - host.dustValue out.scriptPubkey then
        [{ out with value := out.value - fee }] else [] } := by
  have oneOutput : (Outcome.checkedDiv fee [out].length : ContractResult Nat) = .ok fee := by
    simp [Outcome.checkedDiv]
  by_cases pays : fee < out.value - host.dustValue out.scriptPubkey
  · have smallest : fee ≤ min (2 ^ 64 - 1) (out.value - host.dustValue out.scriptPubkey) := by
      omega
    have enough : (Outcome.checkedSub out.value fee : ContractResult Nat) =
        .ok (out.value - fee) := Outcome.checkedSub_eq_ok.mpr ⟨by omega, rfl⟩
    have loop : deductLoop host fee ([out].length + 1) [out] = .ok ([out], fee) := by
      rw [deductLoop, oneOutput, Outcome.ok_bind]
      simp only [List.map_cons, List.map_nil, List.foldl_cons, List.foldl_nil,
        List.filter_cons, pays, decide_true, if_true, List.filter_nil, List.length_singleton,
        Nat.div_one, smallest, one_ne_zero, if_false]
      rfl
    rw [deductFee, if_neg charged, single]
    simp only [Outcome.require, ne_eq, List.cons_ne_nil, not_false_eq_true, if_true,
      Outcome.ok_bind, loop, pays]
    simp [enough]
  · have loop : deductLoop host fee ([out].length + 1) [out] = .ok ([], fee) := by
      rw [deductLoop, oneOutput, Outcome.ok_bind]
      simp [pays]
    rw [deductFee, if_neg charged, single]
    simp only [Outcome.require, ne_eq, List.cons_ne_nil, not_false_eq_true, if_true,
      Outcome.ok_bind, loop, if_neg pays]
    rfl

end BitcoinTx

/-- The transaction that spends one input into one output. -/
def recoveryDraft (input : Input) (output : TxOut) : BitcoinTx :=
  { BitcoinTx.default with
    input := [input]
    output := [output] }

/-- The output that is left after a fee has been deducted. -/
def keptOutput (host : Host) (output : TxOut) (fee : Nat) : List TxOut :=
  if fee = 0 then [output]
  else if fee < output.value - host.dustValue output.scriptPubkey then
    [{ output with value := output.value - fee }]
  else []

/-- A recovery transaction spends the deposit with the old signatory set, and
pays to the script of the new one what the fee leaves, which is above dust. -/
structure RecoveryTx.PaysAboveDust (host : Host) (recoveryTx : RecoveryTx) (input : Input)
    (output : TxOut) (fee : Nat) : Prop where
  input_eq : ∃ message, recoveryTx.tx.input =
    [{ input with signatures := input.signatures.setMessage message }]
  output_eq : recoveryTx.tx.output = [{ output with value := output.value - fee }]
  aboveDust : host.dustValue output.scriptPubkey < output.value - fee

namespace RecoveryTxs

variable {host : Host} {recoveryTxs after : List RecoveryTx} {args : RecoveryTxInput}

/-- What a created recovery transaction is made of. -/
structure Created (host : Host) (args : RecoveryTxInput) (recoveryTx : RecoveryTx) where
  expired : TxOut
  expired_eq : args.expiredTx.output[args.vout]? = some expired
  input : Input
  input_eq : Input.new host ⟨args.expiredTx.txid host, args.vout⟩ args.oldSigset
    (args.dest.commitmentBytes host) expired.value args.threshold = .ok input
  scriptPubkey : Script
  scriptPubkey_eq : args.newSigset.outputScript host (args.dest.commitmentBytes host)
    args.threshold = .ok scriptPubkey
  vsize : Nat
  vsize_eq : (recoveryDraft input ⟨expired.value, scriptPubkey⟩).estVsize host = .ok vsize
  fee_lt : args.feeRate * vsize < 2 ^ 64
  message : Bytes
  tx_eq : recoveryTx.tx = {
    recoveryDraft { input with signatures := input.signatures.setMessage message }
      ⟨expired.value, scriptPubkey⟩ with
    output := keptOutput host ⟨expired.value, scriptPubkey⟩ (args.feeRate * vsize) }
  message_eq : message =
    host.segwitSignatureHash recoveryTx.tx.skeleton 0 input.redeemScript input.amount
  newSigsetIndex_eq : recoveryTx.newSigsetIndex = args.newSigset.index
  dest_eq : recoveryTx.dest = args.dest

theorem deductFee_recoveryDraft (input : Input) (output : TxOut) {fee : Nat}
    (inRange : fee < 2 ^ 64) : (recoveryDraft input output).deductFee host fee =
      .ok { recoveryDraft input output with output := keptOutput host output fee } := by
  unfold keptOutput
  by_cases free : fee = 0
  · rw [if_pos free, free]
    rfl
  · rw [if_neg free, BitcoinTx.deductFee_single rfl free inRange]

theorem createRecoveryTx_eq_ok (created : createRecoveryTx host recoveryTxs args = .ok after) :
    ∃ recoveryTx, after = recoveryTxs ++ [recoveryTx] ∧
      Nonempty (Created host args recoveryTx) := by
  simp only [createRecoveryTx, Outcome.bind_eq_ok, Outcome.getOr_fail_eq_ok,
    Outcome.checkedMul_eq_ok, Outcome.pure_eq_ok] at created
  obtain ⟨expired, expiredAt, input, made, scriptPubkey, scriptOk, vsize, estimated, fee,
    ⟨inRange, rfl⟩, deducted, deductedOk, tx, populated, rfl⟩ := created
  have deductedEq : (recoveryDraft input ⟨expired.value, scriptPubkey⟩).deductFee host _ = _ :=
    deductFee_recoveryDraft input ⟨expired.value, scriptPubkey⟩ inRange
  obtain rfl := Except.ok.inj (deductedEq.symm.trans deductedOk)
  simp only [BitcoinTx.populateInputSigMessage, Outcome.bind_eq_ok, Outcome.getOr_fail_eq_ok,
    Outcome.pure_eq_ok] at populated
  obtain ⟨bitcoinTx, converted, first, firstEq, rfl⟩ := populated
  obtain rfl : input = first := Option.some.inj firstEq
  exact ⟨_, rfl, ⟨{
    expired
    expired_eq := expiredAt
    input
    input_eq := made
    scriptPubkey
    scriptPubkey_eq := scriptOk
    vsize
    vsize_eq := estimated
    fee_lt := inRange
    message := host.segwitSignatureHash bitcoinTx.stripWitness 0 input.redeemScript input.amount
    tx_eq := rfl
    message_eq := by rw [BitcoinTx.stripWitness_of_toBitcoinTx converted]; rfl
    newSigsetIndex_eq := rfl
    dest_eq := rfl }⟩⟩

/-- The stored transaction pays what it should exactly when the deposit is worth
more than the fee and the dust limit together. -/
theorem Created.paysAboveDust_iff {recoveryTx : RecoveryTx} (created : Created host args recoveryTx) :
    recoveryTx.PaysAboveDust host created.input ⟨created.expired.value, created.scriptPubkey⟩
        (args.feeRate * created.vsize) ↔
      host.dustValue created.scriptPubkey + args.feeRate * created.vsize <
        created.expired.value := by
  constructor
  · intro pays
    have above := pays.aboveDust
    simp only at above
    omega
  · intro enough
    refine ⟨⟨created.message, by rw [created.tx_eq]; rfl⟩, ?_, by simp only; omega⟩
    rw [created.tx_eq]
    simp only [keptOutput]
    split
    · rename_i free
      rw [free, Nat.sub_zero]
    · rw [if_pos (by omega)]

end RecoveryTxs

namespace Store

variable {host : Host} {env : Env} {store after : Store}

/-- The arguments with which an expired deposit is recovered. -/
def recoveryArgs (store : Store) (btcTx : Transaction) (btcVout : Nat) (dest : Dest)
    (checkpoint building : Checkpoint) : RecoveryTxInput where
  expiredTx := btcTx
  vout := btcVout
  oldSigset := checkpoint.sigset
  newSigset := building.sigset
  threshold := store.checkpointConfig.sigsetThreshold
  feeRate := building.feeRate
  dest := dest

/-- A deposit that is relayed too late is recovered. -/
theorem createRecoveryTx_of_relayDeposit {btcTx : Transaction}
    {btcHeight btcVout sigsetIndex : Nat} {btcProof : PartialMerkleTree} {dest : Dest}
    {checkpoint building : Checkpoint}
    (relayed : store.relayDeposit host env btcTx btcHeight btcProof btcVout sigsetIndex dest =
      .ok after)
    (got : store.queue.get sigsetIndex = .ok checkpoint)
    (read : store.queue.building = .ok building)
    (expired : checkpoint.sigset.createTime + store.bitcoinConfig.maxDepositAge < env.seconds) :
    RecoveryTxs.createRecoveryTx host store.recoveryTxs
      (store.recoveryArgs btcTx btcVout dest checkpoint building) = .ok after.recoveryTxs := by
  simp only [relayDeposit, got, Outcome.bind_eq_ok, Outcome.ok_bind, Outcome.checkedAdd_eq_ok]
    at relayed
  obtain ⟨txid, -, -, -, output, -, expectedScript, -, -, -, -, -, depositTimeout, ⟨-, rfl⟩, -, -,
    relayed⟩ := relayed
  rw [if_pos expired] at relayed
  have sameRead : (store.insertOutpoint ⟨btcTx.txid host, btcVout⟩
      (checkpoint.sigset.createTime + store.bitcoinConfig.maxDepositAge)).queue.building =
        .ok building := read
  simp only [sameRead, Outcome.ok_bind, Outcome.bind_eq_ok, Outcome.pure_eq_ok] at relayed
  obtain ⟨recoveryTxs, created, rfl⟩ := relayed
  exact created

/-- For an expired deposit one recovery transaction is stored.  It pays to the
new signatory set what the fee leaves, and this is above dust, exactly when the
deposit is worth more than the fee and the dust limit together. -/
theorem relayDeposit_recovery_iff {btcTx : Transaction}
    {btcHeight btcVout sigsetIndex : Nat} {btcProof : PartialMerkleTree} {dest : Dest}
    {checkpoint building : Checkpoint}
    (relayed : store.relayDeposit host env btcTx btcHeight btcProof btcVout sigsetIndex dest =
      .ok after)
    (got : store.queue.get sigsetIndex = .ok checkpoint)
    (read : store.queue.building = .ok building)
    (expired : checkpoint.sigset.createTime + store.bitcoinConfig.maxDepositAge < env.seconds) :
    ∃ recoveryTx deposit input scriptPubkey vsize,
      after.recoveryTxs = store.recoveryTxs ++ [recoveryTx] ∧
      btcTx.output[btcVout]? = some deposit ∧
      Input.new host ⟨btcTx.txid host, btcVout⟩ checkpoint.sigset (dest.commitmentBytes host)
        deposit.value store.checkpointConfig.sigsetThreshold = .ok input ∧
      building.sigset.outputScript host (dest.commitmentBytes host)
        store.checkpointConfig.sigsetThreshold = .ok scriptPubkey ∧
      (recoveryDraft input ⟨deposit.value, scriptPubkey⟩).estVsize host = .ok vsize ∧
      (recoveryTx.PaysAboveDust host input ⟨deposit.value, scriptPubkey⟩
          (building.feeRate * vsize) ↔
        host.dustValue scriptPubkey + building.feeRate * vsize < deposit.value) := by
  obtain ⟨recoveryTx, stored, ⟨created⟩⟩ := RecoveryTxs.createRecoveryTx_eq_ok
    (createRecoveryTx_of_relayDeposit relayed got read expired)
  exact ⟨recoveryTx, created.expired, created.input, created.scriptPubkey, created.vsize, stored,
    created.expired_eq, created.input_eq, created.scriptPubkey_eq, created.vsize_eq,
    created.paysAboveDust_iff⟩

end Store

namespace Sample

/-- The bridge with its first checkpoint, and a block that holds a transaction. -/
def openedStore (tx : Transaction) : Store :=
  (Contract.machine host).run initial
    (openingCalls tx ++ [.clockEndBlock querier (env 1000) [1]])

/-- The first output of a transaction is relayed after it has expired. -/
def expiredRelay (tx : Transaction) : ContractResult Store :=
  (openedStore tx).relayDeposit host (env 1300000) tx 7 (proofOf (tx.txid host)) 0 0
    (.address "a")

/-- The bridge after the relay. -/
def recoveredStore (tx : Transaction) : Store := (expiredRelay tx).toOption.getD (openedStore tx)

end Sample

/-- The sample deposit is recovered. -/
theorem Store.relayDeposit_recovery_iff_paid :
    ∃ recoveryTx input output fee,
      (Sample.recoveredStore Sample.depositTx).recoveryTxs = [recoveryTx] ∧
        recoveryTx.PaysAboveDust Sample.host input output fee := by
  let store := Sample.openedStore Sample.depositTx
  have relayed : Sample.expiredRelay Sample.depositTx =
      .ok (Sample.recoveredStore Sample.depositTx) := by decide +kernel
  have got : store.queue.get 0 = .ok (Sample.checkpointAt store 0) := by decide +kernel
  have read : store.queue.building = .ok (Sample.checkpointAt store 0) := by decide +kernel
  obtain ⟨recoveryTx, deposit, input, scriptPubkey, vsize, stored, paid, made, scriptOk, estimated,
    pays⟩ := relayDeposit_recovery_iff relayed got read (by decide +kernel)
  have drafted : (do
      let input ← Input.new Sample.host ⟨Sample.depositTx.txid Sample.host, 0⟩
        (Sample.checkpointAt store 0).sigset ((Dest.address "a").commitmentBytes Sample.host)
        100000 store.checkpointConfig.sigsetThreshold
      let scriptPubkey ← (Sample.checkpointAt store 0).sigset.outputScript Sample.host
        ((Dest.address "a").commitmentBytes Sample.host) store.checkpointConfig.sigsetThreshold
      (recoveryDraft input ⟨100000, scriptPubkey⟩).estVsize Sample.host) = .ok 213 := by
    decide +kernel
  have dust : (do
      let scriptPubkey ← (Sample.checkpointAt store 0).sigset.outputScript Sample.host
        ((Dest.address "a").commitmentBytes Sample.host) store.checkpointConfig.sigsetThreshold
      pure (Sample.host.dustValue scriptPubkey)) = .ok 618 := by
    decide +kernel
  have isValue : deposit.value = 100000 := by
    have found : Sample.depositTx.output[0]?.map TxOut.value = some 100000 := by decide +kernel
    rw [paid] at found
    exact Option.some.inj found
  have rate : (Sample.checkpointAt store 0).feeRate = 55 := by decide +kernel
  have none : store.recoveryTxs = [] := by decide +kernel
  rw [isValue] at made estimated pays
  rw [made, Outcome.ok_bind, scriptOk, Outcome.ok_bind] at drafted
  rw [scriptOk, Outcome.ok_bind, Outcome.pure_eq_ok] at dust
  have isSize : vsize = 213 := Except.ok.inj (estimated.symm.trans drafted)
  rw [none, List.nil_append] at stored
  refine ⟨recoveryTx, input, _, _, stored, pays.mpr ?_⟩
  rw [isSize, rate, dust]
  decide

/-- The output of a small deposit is removed to pay the fee.  The transaction is
stored without an output, and the deposit counts as processed. -/
theorem Store.relayDeposit_recovery_unpaid :
    let deposit := Sample.depositTo 1000 (utf8 "a")
    let after := Sample.recoveredStore deposit
    Sample.expiredRelay deposit = .ok after ∧
      after.outpoints = [⟨deposit.txid Sample.host, 0⟩] ∧
      ∃ recoveryTx, after.recoveryTxs = [recoveryTx] ∧ recoveryTx.tx.output = [] ∧
        ∀ input output fee, ¬ recoveryTx.PaysAboveDust Sample.host input output fee := by
  intro deposit after
  have outputs : after.recoveryTxs.map (fun recoveryTx => recoveryTx.tx.output) = [[]] := by
    decide +kernel
  obtain ⟨recoveryTx, isStored, noOutput⟩ := List.map_eq_singleton_iff.mp outputs
  refine ⟨by decide +kernel, by decide +kernel, recoveryTx, isStored, noOutput, ?_⟩
  intro input output fee pays
  have oneOutput := pays.output_eq
  rw [noOutput] at oneOutput
  cases oneOutput

end CwBitcoin
