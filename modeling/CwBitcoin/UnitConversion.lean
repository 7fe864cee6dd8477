import CwBitcoin.WritesInPlace

/-!
# Satoshis and units of the bridged coin

Amounts pass between satoshis and units through products and casts of 64 bits.  One
satoshi is a million units, so the whole Bitcoin supply does not fit: a large deposit
overflows, and a large withdrawal is cut down to its low 64 bits.
-/

namespace CwBitcoin

/-- Only a fee below 2 ^ 63 keeps its value as a signed number. -/
theorem asI64_eq_iff {value : Nat} (fits : value < 2 ^ 64) : asI64 value = value ↔ value < 2 ^ 63 := by
  rw [asI64, BitVec.toInt_eq_toNat_bmod, BitVec.toNat_ofNat, Int.bmod_def]
  omega

/-- Dividing the low 64 bits rounds the whole amount down exactly when nothing is cut
off.  Units are assumed to be small, so that what is cut off is more than one output. -/
theorem asU64_div_exact_iff {amount units : Nat} (positive : 0 < units) (small : units ≤ 2 ^ 64) :
    (asU64 amount / units * units ≤ amount ∧ amount < (asU64 amount / units + 1) * units) ↔
      amount < 2 ^ 64 := by
  have below : asU64 amount / units * units ≤ asU64 amount := Nat.div_mul_le_self _ _
  have above : asU64 amount < (asU64 amount / units + 1) * units := by
    rw [Nat.mul_comm]
    exact Nat.lt_mul_div_succ _ positive
  rw [Nat.add_mul, Nat.one_mul] at above ⊢
  unfold asU64 at *
  constructor
  · rintro ⟨-, exact⟩
    by_contra large
    omega
  · intro fits
    rw [Nat.mod_eq_of_lt fits] at below above ⊢
    exact ⟨below, above⟩

namespace Store

variable {host : Host} {env : Env} {store after : Store}

/-- The exact fee of so many virtual bytes, in units of the bridged coin. -/
def feeUnits (store : Store) (vsize feeRate : Nat) : Nat :=
  vsize * feeRate * store.checkpointConfig.userFeeFactor / 10000 * store.bitcoinConfig.unitsPerSat

theorem calcMinimumFees_eq_ok {vsize feeRate fee : Nat} :
    store.calcMinimumFees vsize feeRate = .ok fee ↔
      vsize * feeRate < 2 ^ 64 ∧
        vsize * feeRate * store.checkpointConfig.userFeeFactor < 2 ^ 64 ∧
        store.feeUnits vsize feeRate < 2 ^ 64 ∧ store.feeUnits vsize feeRate = fee := by
  simp only [calcMinimumFees, Outcome.bind_eq_ok, Outcome.checkedMul_eq_ok]
  constructor
  · rintro ⟨scaled, ⟨first, rfl⟩, charge, ⟨second, rfl⟩, third, rfl⟩
    exact ⟨first, second, third, rfl⟩
  · rintro ⟨first, second, third, rfl⟩
    exact ⟨_, ⟨first, rfl⟩, _, ⟨second, rfl⟩, third, rfl⟩

variable {older : List Checkpoint} {building : Checkpoint} {fee : Nat}

/-- A fee is collected when the fee pool and the checkpoint have room for it. -/
theorem giveMinerFee_of_fits (aligned : store.queue.Aligned)
    (split : store.queue.checkpoints = older ++ [building])
    (unitsNe : store.bitcoinConfig.unitsPerSat ≠ 0) (feeLt : fee < 2 ^ 63)
    (pool : FitsI64 (store.feePool + fee))
    (collected : building.feesCollected + fee / store.bitcoinConfig.unitsPerSat < 2 ^ 64) :
    store.giveMinerFee fee = .ok { store with
      feePool := store.feePool + fee
      queue := { store.queue with
        checkpoints := older ++ [building.collect (fee / store.bitcoinConfig.unitsPerSat)] } } := by
  have feeEq : asU64 fee = fee := Nat.mod_eq_of_lt (by omega)
  have read : store.queue.building = .ok building :=
    QueueStore.building_eq_ok.mpr ⟨aligned, older, split⟩
  simp only [giveMinerFee, feeEq, asI64_of_lt feeLt, Outcome.bind_eq_ok, checkedI64_eq_ok,
    Outcome.checkedDiv_eq_ok, Outcome.checkedAdd_eq_ok, Outcome.pure_eq_ok, read]
  exact ⟨_, ⟨pool, rfl⟩, building, rfl, _, ⟨unitsNe, rfl⟩, _, ⟨collected, rfl⟩, _,
    QueueStore.set_last aligned split _, rfl⟩

/-- What a fee that is collected says about the room for it. -/
theorem fits_of_giveMinerFee (feeLt : fee < 2 ^ 64)
    (split : store.queue.checkpoints = older ++ [building])
    (gave : store.giveMinerFee fee = .ok after) :
    FitsI64 (store.feePool + asI64 fee) ∧
      building.feesCollected + fee / store.bitcoinConfig.unitsPerSat < 2 ^ 64 := by
  have feeEq : asU64 fee = fee := Nat.mod_eq_of_lt feeLt
  simp only [giveMinerFee, feeEq, Outcome.bind_eq_ok, checkedI64_eq_ok, Outcome.checkedDiv_eq_ok,
    Outcome.checkedAdd_eq_ok, Outcome.pure_eq_ok] at gave
  obtain ⟨feePool, ⟨pool, rfl⟩, charged, read, _, ⟨-, rfl⟩, _, ⟨collected, rfl⟩, -⟩ := gave
  obtain ⟨-, others, splitAgain⟩ := QueueStore.building_eq_ok.mp read
  obtain ⟨-, same⟩ := List.append_inj' (split.symm.trans splitAgain) rfl
  obtain rfl := (List.cons.inj same).1
  exact ⟨pool, collected⟩

/-- A deposit of so many satoshis, and its fee, fit wherever they are added up. -/
structure DepositFits (store : Store) (value vsize feeRate : Nat) : Prop where
  amount : value * store.bitcoinConfig.unitsPerSat < 2 ^ 64
  rate : vsize * feeRate < 2 ^ 64
  fee : store.feeUnits vsize feeRate < 2 ^ 63
  feePool : FitsI64 (store.feePool + store.feeUnits vsize feeRate)
  feesCollected : ∀ building ∈ store.queue.checkpoints.getLast?, building.feesCollected +
    store.feeUnits vsize feeRate / store.bitcoinConfig.unitsPerSat < 2 ^ 64

/-- The call credits a deposit with nothing lost: what the destination will be paid and
what the fee pool gained add up to the given units. -/
def CreditsExactly (store : Store) (result : ContractResult Store) (dest : Dest) (units : Nat) :
    Prop :=
  ∃ after older building credited coin, result = .ok after ∧
    store.queue.checkpoints = older ++ [building] ∧
    after.queue.checkpoints = older ++ [credited] ∧
    credited.pending = building.pending ++ [(dest, coin)] ∧
    (coin.amount : Int) + (after.feePool - store.feePool) = units

/-- With a million units for a satoshi, a fee that is paid from an amount in range has
intermediate products in range. -/
theorem charge_lt {charge value : Nat} (covered : charge / 10000 * 1000000 ≤ value * 1000000)
    (amountLt : value * 1000000 < 2 ^ 64) : charge < 2 ^ 64 := by
  omega

section CreditDeposit

variable {input : Input} {feeRate : Nat} {dest : Dest}

theorem creditsExactly_of_fits (units : store.bitcoinConfig.unitsPerSat = 1000000)
    (ordered : store.queue.Ordered) (sized : input.estWitnessVsize + 40 < 2 ^ 64)
    (covered : store.feeUnits (input.estWitnessVsize + 40) feeRate ≤
      input.amount * store.bitcoinConfig.unitsPerSat)
    (fits : store.DepositFits input.amount (input.estWitnessVsize + 40) feeRate) :
    store.CreditsExactly (store.creditDeposit input feeRate dest) dest
      (input.amount * store.bitcoinConfig.unitsPerSat) := by
  obtain ⟨older, building, split⟩ : ∃ older building,
      store.queue.checkpoints = older ++ [building] :=
    ⟨_, _, (List.dropLast_append_getLast ordered.nonempty).symm⟩
  set vsize := input.estWitnessVsize + 40 with vsizeEq
  have single : building.Single := ordered.single (ordered.item_building split)
  have last : building ∈ store.queue.checkpoints.getLast? := by
    rw [split, List.getLast?_concat]
    rfl
  have size : input.estVsize = .ok vsize := Outcome.checkedAdd_eq_ok.mpr ⟨sized, rfl⟩
  have minted : (Outcome.checkedMul 64 input.amount store.bitcoinConfig.unitsPerSat :
      ContractResult Nat) = .ok (input.amount * store.bitcoinConfig.unitsPerSat) :=
    Outcome.checkedMul_eq_ok.mpr ⟨fits.amount, rfl⟩
  have feeLt : store.feeUnits vsize feeRate < 2 ^ 64 := lt_of_le_of_lt covered fits.amount
  have chargeLt : vsize * feeRate * store.checkpointConfig.userFeeFactor < 2 ^ 64 := by
    have amountLt := fits.amount
    unfold feeUnits at covered
    rw [units] at covered amountLt
    exact charge_lt covered amountLt
  have charged : store.calcMinimumDepositFees vsize feeRate =
      .ok (store.feeUnits vsize feeRate) :=
    calcMinimumFees_eq_ok.mpr ⟨fits.rate, chargeLt, feeLt, rfl⟩
  have gave := giveMinerFee_of_fits ordered.aligned split (by rw [units]; decide) fits.fee
    fits.feePool (fits.feesCollected building last)
  set collected := building.collect
    (store.feeUnits vsize feeRate / store.bitcoinConfig.unitsPerSat) with collectedEq
  have read : QueueStore.building { store.queue with checkpoints := older ++ [collected] } =
      .ok collected := by
    refine QueueStore.building_eq_ok.mpr ⟨⟨ordered.aligned.fits, ?_⟩, older, rfl⟩
    have window := ordered.aligned.window
    simpa [Window.Aligned, QueueStore.window, split] using window
  have readAligned := (QueueStore.building_eq_ok.mp read).1
  have collectedSingle : collected.Single := single
  let coin : Coin := ⟨getFullBtcDenom store.config.tokenFactoryAddr,
    input.amount * store.bitcoinConfig.unitsPerSat - store.feeUnits vsize feeRate⟩
  have credited : store.creditDeposit input feeRate dest = .ok { store with
      feePool := store.feePool + store.feeUnits vsize feeRate
      queue := { store.queue with
        checkpoints := older ++ [(collected.withInput input).insertPending dest coin] } } := by
    simp only [creditDeposit, Outcome.bind_eq_ok, Outcome.checkedAdd_eq_ok, Outcome.require_eq_ok,
      Outcome.pure_eq_ok, calcDepositFee, Nat.add_zero, size, minted]
    exact ⟨vsize, rfl, _, rfl, _, charged, _, ⟨feeLt, rfl⟩, (), covered, _, gave, collected, read,
      collected.mainTx, collectedSingle.firstTx, _, QueueStore.set_last readAligned rfl _, rfl⟩
  refine ⟨_, older, building, _, coin, credited, split, rfl, rfl, ?_⟩
  change ((input.amount * store.bitcoinConfig.unitsPerSat - store.feeUnits vsize feeRate : Nat) :
    Int) + (store.feePool + store.feeUnits vsize feeRate - store.feePool) = _
  omega

theorem gives_of_creditDeposit (credited : store.creditDeposit input feeRate dest = .ok after) :
    input.amount * store.bitcoinConfig.unitsPerSat < 2 ^ 64 ∧
      ∃ paid, store.giveMinerFee (store.feeUnits (input.estWitnessVsize + 40) feeRate) =
        .ok paid := by
  simp only [creditDeposit, Outcome.bind_eq_ok, Outcome.checkedMul_eq_ok, Outcome.checkedAdd_eq_ok,
    calcDepositFee, Nat.add_zero] at credited
  obtain ⟨size, sized, _, ⟨amountLt, rfl⟩, fee, charged, _, ⟨-, rfl⟩, -, -, paid, gave, -⟩ :=
    credited
  obtain ⟨-, rfl⟩ := Outcome.checkedAdd_eq_ok.mp sized
  obtain ⟨-, -, -, rfl⟩ := calcMinimumFees_eq_ok.mp charged
  exact ⟨amountLt, paid, gave⟩

theorem fits_of_creditsExactly (exact : store.CreditsExactly (store.creditDeposit input feeRate dest)
    dest (input.amount * store.bitcoinConfig.unitsPerSat)) :
    store.DepositFits input.amount (input.estWitnessVsize + 40) feeRate := by
  obtain ⟨after, older, building, credited, coin, called, split, splitAfter, pendingEq, divided⟩ :=
    exact
  obtain ⟨others, charged, fee, paid, splitAgain, -, ⟨size, sized, feeOk⟩, feeLt, shares,
    afterEq⟩ := creditDeposit_eq_ok called
  obtain ⟨rfl, same⟩ := List.append_inj' (split.symm.trans splitAgain) rfl
  obtain rfl := (List.cons.inj same).1
  rw [afterEq] at splitAfter divided
  obtain ⟨-, sameAfter⟩ := List.append_inj' splitAfter rfl
  rw [← (List.cons.inj sameAfter).1] at pendingEq
  have coinEq : (dest, paid) = (dest, coin) := by simpa using List.append_cancel_left pendingEq
  obtain rfl := (Prod.mk.inj coinEq).2
  obtain ⟨-, rfl⟩ := Outcome.checkedAdd_eq_ok.mp sized
  obtain ⟨rateLt, -, -, rfl⟩ := calcMinimumFees_eq_ok.mp feeOk
  obtain ⟨amountLt, collecting, gave⟩ := gives_of_creditDeposit called
  have signed : asI64 (store.feeUnits (input.estWitnessVsize + 40) feeRate) =
      store.feeUnits (input.estWitnessVsize + 40) feeRate := by
    change (paid.amount : Int) + (store.feePool + asI64 _ - store.feePool) = _ at divided
    omega
  obtain ⟨pool, collected⟩ := fits_of_giveMinerFee feeLt split gave
  refine ⟨amountLt, rateLt, (asI64_eq_iff feeLt).mp signed, signed ▸ pool, ?_⟩
  intro last lastEq
  rw [split, List.getLast?_concat] at lastEq
  obtain rfl := Option.some.inj lastEq
  exact collected

end CreditDeposit

section RelayDeposit

/-- A well-formed set can start to sign, so a deposit that pays to it becomes an input. -/
theorem exists_input_of_pays {sigset : SignatorySet} {dest : Bytes} {threshold : Nat × Nat}
    {scriptPubkey : Script} (wellFormed : sigset.WellFormed)
    (pays : sigset.outputScript host dest threshold = .ok scriptPubkey) (prevout : OutPoint)
    (value : Nat) : ∃ input, Input.new host prevout sigset dest value threshold = .ok input := by
  have scripted := pays
  simp only [SignatorySet.outputScript, Outcome.bind_eq_ok] at scripted
  obtain ⟨redeemScript, redeemed, -⟩ := scripted
  set shares := sigset.signatories.map fun signatory =>
    (signatory.pubkey, ({ power := signatory.votingPower, sig := none } : Share)) with sharesEq
  have counted : (Outcome.checkedAdd 16 0 shares.length : ContractResult Nat) =
      .ok shares.length := by
    have lengthLe := wellFormed.length_le
    unfold MAX_SIGNATORIES at lengthLe
    refine Outcome.checkedAdd_eq_ok.mpr ⟨?_, Nat.zero_add _⟩
    rw [sharesEq, List.length_map]
    omega
  have powersEq : shares.map (fun entry => entry.2.power) =
      sigset.signatories.map Signatory.votingPower := by
    simp [sharesEq, Function.comp_def]
  have summed : (Outcome.checkedSum 64 0 (shares.map fun entry => entry.2.power) :
      ContractResult Nat) = .ok sigset.presentVp := by
    rw [powersEq, wellFormed.presentVp_eq]
    exact Outcome.checkedSum_of_lt (wellFormed.presentVp_eq ▸ wellFormed.presentVp_lt)
  rw [Input.new, pays, redeemed, ThresholdSig.fromSigset, ThresholdSig.ofShares, counted, summed]
  exact ⟨_, rfl⟩

/-- A deposit of a value passes every check: it is proven, new, in time, and pays to a
signatory set that accepts deposits. -/
structure DepositReady (host : Host) (env : Env) (store : Store)
    (deposit : Contract.RelayedDeposit) (btcHeight : Nat) (btcProof : PartialMerkleTree)
    (checkpoint : Checkpoint) (value : Nat) : Prop where
  proven : store.provenTxid host btcHeight btcProof store.bitcoinConfig.minConfirmations =
    .ok (deposit.btcTx.txid host)
  get_eq : store.queue.get deposit.sigsetIndex = .ok checkpoint
  pays : ∃ scriptPubkey, checkpoint.sigset.outputScript host (deposit.dest.commitmentBytes host)
      store.checkpointConfig.sigsetThreshold = .ok scriptPubkey ∧
    deposit.btcTx.output[deposit.btcVout]? = some ⟨value, scriptPubkey⟩
  fresh : ⟨deposit.btcTx.txid host, deposit.btcVout⟩ ∉ store.outpoints
  timeout_lt : checkpoint.sigset.createTime + store.bitcoinConfig.maxDepositAge < 2 ^ 64
  enabled : checkpoint.depositsEnabled
  inTime : env.seconds ≤ checkpoint.sigset.createTime + store.bitcoinConfig.maxDepositAge

variable {deposit : Contract.RelayedDeposit} {btcHeight : Nat} {btcProof : PartialMerkleTree}
  {checkpoint : Checkpoint} {value : Nat}

/-- A deposit that passes every check is credited as an input of its value. -/
theorem DepositReady.relayDeposit_eq
    (ready : DepositReady host env store deposit btcHeight btcProof checkpoint value)
    (wellFormed : checkpoint.sigset.WellFormed) :
    ∃ input, input.amount = value ∧ input.estWitnessVsize = checkpoint.sigset.estWitnessVsize ∧
      store.relayDeposit host env deposit.btcTx btcHeight btcProof deposit.btcVout
          deposit.sigsetIndex deposit.dest =
        (store.insertOutpoint ⟨deposit.btcTx.txid host, deposit.btcVout⟩
          (checkpoint.sigset.createTime + store.bitcoinConfig.maxDepositAge)).creditDeposit input
            checkpoint.feeRate deposit.dest := by
  obtain ⟨scriptPubkey, scriptOk, outputAt⟩ := ready.pays
  obtain ⟨input, made⟩ := exists_input_of_pays wellFormed scriptOk
    ⟨deposit.btcTx.txid host, deposit.btcVout⟩ value
  obtain ⟨-, amountEq, vsizeEq, -, -⟩ := Input.new_eq_ok made
  have timeout : (Outcome.checkedAdd 64 checkpoint.sigset.createTime
      store.bitcoinConfig.maxDepositAge : ContractResult Nat) =
        .ok (checkpoint.sigset.createTime + store.bitcoinConfig.maxDepositAge) :=
    Outcome.checkedAdd_eq_ok.mpr ⟨ready.timeout_lt, rfl⟩
  have notLate := Nat.not_lt.mpr ready.inTime
  refine ⟨input, amountEq, vsizeEq, ?_⟩
  simp only [relayDeposit, ready.proven, outputAt, ready.get_eq, scriptOk, timeout,
    Outcome.getOr, Outcome.require, ready.fresh, ready.enabled, not_false_eq_true, if_true,
    Outcome.ok_bind, if_neg notLate, made]

/-- A deposit that passes every check and pays its fee is credited without loss exactly
when all amounts fit.  The processed outpoints play no role in this. -/
theorem DepositReady.creditsExactly_iff
    (ready : DepositReady host env store deposit btcHeight btcProof checkpoint value)
    (units : store.bitcoinConfig.unitsPerSat = 1000000) (shaped : store.queue.Shaped)
    (covered : store.feeUnits (checkpoint.sigset.estWitnessVsize + 40) checkpoint.feeRate ≤
      value * 1000000) :
    store.CreditsExactly (store.relayDeposit host env deposit.btcTx btcHeight btcProof
        deposit.btcVout deposit.sigsetIndex deposit.dest) deposit.dest (value * 1000000) ↔
      store.DepositFits value (checkpoint.sigset.estWitnessVsize + 40) checkpoint.feeRate := by
  obtain ⟨-, found⟩ := QueueStore.get_eq_ok.mp ready.get_eq
  have ordered := shaped.ordered_of_item found
  have wellFormed := ordered.wellFormed found
  obtain ⟨input, amountEq, vsizeEq, relayed⟩ := ready.relayDeposit_eq wellFormed
  have sized : checkpoint.sigset.estWitnessVsize + 40 < 2 ^ 64 := by
    have lengthLe := wellFormed.length_le
    rw [SignatorySet.estWitnessVsize]
    unfold MAX_SIGNATORIES at lengthLe
    omega
  rw [relayed, ← units]
  rw [← units] at covered
  rw [← vsizeEq] at covered sized ⊢
  rw [← amountEq] at covered ⊢
  set inserted := store.insertOutpoint ⟨deposit.btcTx.txid host, deposit.btcVout⟩
    (checkpoint.sigset.createTime + store.bitcoinConfig.maxDepositAge) with insertedEq
  have fits_iff : inserted.CreditsExactly
      (inserted.creditDeposit input checkpoint.feeRate deposit.dest) deposit.dest
        (input.amount * inserted.bitcoinConfig.unitsPerSat) ↔
      inserted.DepositFits input.amount (input.estWitnessVsize + 40) checkpoint.feeRate :=
    ⟨fits_of_creditsExactly, creditsExactly_of_fits units ordered sized covered⟩
  have same : inserted.DepositFits input.amount (input.estWitnessVsize + 40) checkpoint.feeRate ↔
      store.DepositFits input.amount (input.estWitnessVsize + 40) checkpoint.feeRate :=
    ⟨fun fits => ⟨fits.amount, fits.rate, fits.fee, fits.feePool, fits.feesCollected⟩,
      fun fits => ⟨fits.amount, fits.rate, fits.fee, fits.feePool, fits.feesCollected⟩⟩
  exact fits_iff.trans same

end RelayDeposit

/-- The withdrawal adds an output of the value that its amount without the fee has,
rounded down to whole satoshis. -/
def WithdrawsExactly (store after : Store) (scriptPubkey : Script) (amount fee : Nat) : Prop :=
  ∃ older building withdrawn value,
    store.queue.checkpoints = older ++ [building] ∧
    after.queue.checkpoints = older ++ [withdrawn] ∧
    withdrawn.mainTx.output = building.mainTx.output ++ [⟨value, scriptPubkey⟩] ∧
    value * store.bitcoinConfig.unitsPerSat ≤ amount - fee ∧
    amount - fee < (value + 1) * store.bitcoinConfig.unitsPerSat

theorem withdrawsExactly_iff {scriptPubkey : Script} {amount : Nat}
    (units : store.bitcoinConfig.unitsPerSat ≤ 2 ^ 64)
    (added : store.addWithdrawal host scriptPubkey amount = .ok after) :
    ∃ fee ≤ amount, store.withdrawalFee scriptPubkey = .ok fee ∧
      (store.WithdrawsExactly after scriptPubkey amount fee ↔ amount - fee < 2 ^ 64) := by
  obtain ⟨older, building, fee, split, ⟨tx, first⟩, charged, -, covered, unitsNe, afterEq⟩ :=
    addWithdrawal_eq_ok added
  refine ⟨fee, covered, charged, ?_⟩
  have outputEq := congrArg BitcoinTx.output (Checkpoint.mainTx_withdrawn first
    (fee / store.bitcoinConfig.unitsPerSat)
    ⟨asU64 (amount - fee) / store.bitcoinConfig.unitsPerSat, scriptPubkey⟩)
  rw [← asU64_div_exact_iff (Nat.pos_of_ne_zero unitsNe) units]
  constructor
  · rintro ⟨others, last, withdrawn, value, splitAgain, splitAfter, output, lower, upper⟩
    obtain ⟨rfl, same⟩ := List.append_inj' (split.symm.trans splitAgain) rfl
    obtain rfl := (List.cons.inj same).1
    rw [afterEq] at splitAfter
    obtain ⟨-, sameAfter⟩ := List.append_inj' splitAfter rfl
    rw [← (List.cons.inj sameAfter).1, outputEq] at output
    have valueEq := List.append_cancel_left output
    simp only [List.cons.injEq, TxOut.mk.injEq, and_true] at valueEq
    rw [valueEq]
    exact ⟨lower, upper⟩
  · rintro ⟨lower, upper⟩
    refine ⟨older, building, _, asU64 (amount - fee) / store.bitcoinConfig.unitsPerSat, split, ?_,
      outputEq, lower, upper⟩
    rw [afterEq]

end Store

namespace Sample

/-- The calls up to the first checkpoint, with a header for a transaction and with
withdrawals enabled. -/
def receivingCalls (tx : Transaction) : List Contract.Call := openingCalls tx ++ [
  executeAt 0 (.updateBitcoinConfig
    { BitcoinConfig.default with minConfirmations := 0, minWithdrawalCheckpoints := 0 }),
  .clockEndBlock querier (env 1000) [1]]

def receiving (tx : Transaction) : Store :=
  (Contract.machine host .rawKey).run initial (receivingCalls tx)

/-- The deposit of so many satoshis for the sample destination. -/
def depositOf (value : Nat) : Contract.RelayedDeposit where
  btcTx := depositTo value (utf8 "a")
  btcVout := 0
  sigsetIndex := 0
  dest := .address "a"

/-- The proof of the only transaction in its block. -/
def proofOfDeposit (value : Nat) : PartialMerkleTree := proofOf ((depositOf value).btcTx.txid host)

/-- An address whose script is a witness program of twenty bytes. -/
def payee : String := String.ofList (List.replicate 20 'b')

def payeeScript : Script := 0x00 :: 0x14 :: utf8 payee

/-- The withdrawal of so many units to that address. -/
def withdrawalOf (amount : Nat) : Contract.Call :=
  .execute querier (env 1020) { sender := "a", funds := [⟨"factory/factory/obtc", amount⟩] }
    (.withdrawToBitcoin payee)

/-- The script of the sample destination. -/
def depositScript : Script :=
  (firstSigset.outputScript host (utf8 "a") SIGSET_THRESHOLD).toOption.getD []

end Sample

/-- In every state of every run with a million units for a satoshi whose writes are in
place: a deposit that passes every check and pays its fee is credited without loss exactly
when all amounts fit in their words, and a withdrawal that is accepted pays out its amount
exactly when that fits in 64 bits. -/
theorem Contract.run_convertsExactly_iff (host : Host) (deque : DequeSet) (info : MessageInfo)
    (msg : InstantiateMsg) (calls : List Call)
    (inPlace : (machine host deque).Permitted (WritesInPlace host deque)
      (instantiate host info msg) calls) :
    let store := (machine host deque).run (instantiate host info msg) calls
    store.bitcoinConfig.unitsPerSat = 1000000 →
      (∀ env deposit btcHeight btcProof checkpoint value,
        Store.DepositReady host env store deposit btcHeight btcProof checkpoint value →
        store.feeUnits (checkpoint.sigset.estWitnessVsize + 40) checkpoint.feeRate ≤
          value * 1000000 →
        (store.CreditsExactly (store.relayDeposit host env deposit.btcTx btcHeight btcProof
            deposit.btcVout deposit.sigsetIndex deposit.dest deque) deposit.dest
              (value * 1000000) ↔
          store.DepositFits value (checkpoint.sigset.estWitnessVsize + 40)
            checkpoint.feeRate)) ∧
      ∀ scriptPubkey amount after,
        store.addWithdrawal host scriptPubkey amount deque = .ok after →
        ∃ fee ≤ amount, store.withdrawalFee scriptPubkey = .ok fee ∧
          (store.WithdrawsExactly after scriptPubkey amount fee ↔ amount - fee < 2 ^ 64) := by
  intro store units
  constructor
  · intro env deposit btcHeight btcProof checkpoint value ready covered
    have shaped : store.queue.Shaped := by
      have sameStore : store = (machine host).run (instantiate host info msg) calls :=
        (run_inPlace inPlace).1
      rw [sameStore]
      exact run_shaped host info msg calls
    rw [relayDeposit_run_inPlace inPlace]
    exact ready.creditsExactly_iff units shaped covered
  · intro scriptPubkey amount after added
    rw [addWithdrawal_run_inPlace inPlace] at added
    exact Store.withdrawsExactly_iff (by rw [units]; decide) added

/-- The sample deposit is credited without loss. -/
theorem Contract.run_convertsExactly_sample :
    let store := Sample.receiving Sample.depositTx
    store.CreditsExactly (store.relayDeposit Sample.host (Sample.env 1010) Sample.depositTx 7
      (Sample.proofOfDeposit 100000) 0 0 (.address "a") .rawKey) (.address "a")
        (100000 * 1000000) := by
  intro store
  refine ((run_convertsExactly_iff Sample.host .rawKey Sample.info Sample.instantiateMsg
    (Sample.receivingCalls Sample.depositTx) (by decide +kernel) (by decide +kernel)).1
      (Sample.env 1010) (Sample.depositOf 100000) 7 (Sample.proofOfDeposit 100000)
      (Sample.checkpointAt store 0) 100000 ?_ (by decide +kernel)).mpr ?_
  · exact ⟨by decide +kernel, by decide +kernel,
      ⟨Sample.depositScript, by decide +kernel, by decide +kernel⟩, by decide +kernel,
      by decide +kernel, by decide +kernel, by decide +kernel⟩
  · exact ⟨by decide +kernel, by decide +kernel, by decide +kernel, by decide +kernel,
      by decide +kernel⟩

/-- A deposit of a little more than 184467 bitcoins can never be relayed, and the
withdrawal of as much is accepted and pays out 300 satoshis. -/
theorem Contract.run_convertsInexactly :
    let value := 18446744073710
    let store := Sample.receiving (Sample.depositOf value).btcTx
    let amount := 2 ^ 64 + 4603000000 + 300000000
    (store.bitcoinConfig.unitsPerSat = 1000000 ∧ value ≤ 2100000000000000 ∧
      Store.DepositReady Sample.host (Sample.env 1010) store (Sample.depositOf value) 7
        (Sample.proofOfDeposit value) (Sample.checkpointAt store 0) value ∧
      store.feeUnits ((Sample.checkpointAt store 0).sigset.estWitnessVsize + 40)
        (Sample.checkpointAt store 0).feeRate ≤ value * 1000000 ∧
      store.relayDeposit Sample.host (Sample.env 1010) (Sample.depositOf value).btcTx 7
        (Sample.proofOfDeposit value) 0 0 (.address "a") .rawKey = Outcome.abort) ∧
    amount ≤ 2100000000000000000000 ∧
      ∃ after, store.addWithdrawal Sample.host Sample.payeeScript amount .rawKey = .ok after ∧
        (machine Sample.host .rawKey).call store (Sample.withdrawalOf amount) = .ok after ∧
        store.withdrawalFee Sample.payeeScript = .ok 4603000000 ∧
        (Sample.checkpointAt after 0).mainTx.output = [⟨300, Sample.payeeScript⟩] ∧
        ¬ store.WithdrawsExactly after Sample.payeeScript amount 4603000000 := by
  intro value store amount
  refine ⟨⟨by decide +kernel, by decide, ?_, by decide +kernel, by decide +kernel⟩, by decide, ?_⟩
  · exact ⟨by decide +kernel, by decide +kernel,
      ⟨Sample.depositScript, by decide +kernel, by decide +kernel⟩, by decide +kernel,
      by decide +kernel, by decide +kernel, by decide +kernel⟩
  · have accepted : ((store.addWithdrawal Sample.host Sample.payeeScript amount
        .rawKey).toOption.map fun after => (Sample.checkpointAt after 0).mainTx.output) =
          some [⟨300, Sample.payeeScript⟩] := by decide +kernel
    have called : (machine Sample.host .rawKey).call store (Sample.withdrawalOf amount) =
        store.addWithdrawal Sample.host Sample.payeeScript amount .rawKey := by decide +kernel
    cases added : store.addWithdrawal Sample.host Sample.payeeScript amount .rawKey with
    | error fault => simp [added, Except.toOption] at accepted
    | ok after =>
        have charged : store.withdrawalFee Sample.payeeScript = .ok 4603000000 := by decide +kernel
        have atZero : store.queue.head = 0 := by decide +kernel
        have addedElement := added
        rw [Store.addWithdrawal_rawKey atZero] at addedElement
        obtain ⟨fee, -, feeOk, exact_iff⟩ :=
          Store.withdrawsExactly_iff (by decide +kernel) addedElement
        obtain rfl : 4603000000 = fee := Except.ok.inj (charged.symm.trans feeOk)
        refine ⟨after, rfl, called.trans added, charged, ?_, fun exact => ?_⟩
        · simpa [added, Except.toOption] using accepted
        · exact absurd (exact_iff.mp exact) (by decide)

end CwBitcoin
