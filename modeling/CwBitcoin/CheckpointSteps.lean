import CwBitcoin.Checkpoint

/-!
# What the operations on a checkpoint do

Signing changes nothing of a transaction but its signatures, and freezing a
transaction cuts it to the configured limits and sets the value of its reserve
output.
-/

namespace CwBitcoin

/-- An input without its signatures. -/
def Input.unsigned (input : Input) : Input := { input with signatures := ThresholdSig.default }

theorem Input.new_eq_ok {host : Host} {prevout : OutPoint} {sigset : SignatorySet} {dest : Bytes}
    {amount : Nat} {threshold : Nat × Nat} {input : Input}
    (made : Input.new host prevout sigset dest amount threshold = .ok input) :
    input.prevout = prevout ∧ input.amount = amount ∧
      input.estWitnessVsize = sigset.estWitnessVsize ∧
      sigset.redeemScript dest threshold = .ok input.redeemScript ∧
      ThresholdSig.fromSigset sigset = .ok input.signatures := by
  simp only [Input.new, Outcome.bind_eq_ok, Outcome.pure_eq_ok] at made
  obtain ⟨scriptPubkey, -, redeemScript, redeemed, signatures, started, rfl⟩ := made
  exact ⟨rfl, rfl, rfl, redeemed, started⟩

theorem Input.dest_of_new {host : Host} {prevout : OutPoint} {sigset : SignatorySet} {dest : Bytes}
    {amount : Nat} {threshold : Nat × Nat} {input : Input}
    (made : Input.new host prevout sigset dest amount threshold = .ok input) :
    input.dest = dest := by
  simp only [Input.new, Outcome.bind_eq_ok, Outcome.pure_eq_ok] at made
  obtain ⟨scriptPubkey, -, redeemScript, -, signatures, -, rfl⟩ := made
  rfl

theorem Input.toTxin_eq_ok {host : Host} {input : Input} {txin : TxIn} :
    input.toTxin host = .ok txin ↔
      ∃ witness, input.signatures.toWitness host = .ok witness ∧ {
        previousOutput := input.prevout
        scriptSig := []
        sequence := 2 ^ 32 - 1
        witness := if input.signatures.signed then witness ++ [input.redeemScript]
          else witness } = txin := by
  simp only [toTxin, Outcome.bind_eq_ok, Outcome.pure_eq_ok]

/-- The shares of a new signing state are the given ones. -/
theorem ThresholdSig.fromShares_sigs {shares : List (Pubkey × Share)} {ts : ThresholdSig}
    (started : fromShares shares = .ok ts) : ts.sigs = shares := by
  simp only [fromShares, Outcome.bind_eq_ok] at started
  obtain ⟨-, -, started⟩ := started
  exact congrArg sigs (ofShares_eq_ok started).2

namespace BitcoinTx

/-- What signatures do not change in a transaction. -/
def unsigned (tx : BitcoinTx) : BitcoinTx :=
  { tx with
    signedInputs := 0
    input := tx.input.map Input.unsigned }

/-- The transaction as its identifier sees it. -/
def skeleton (tx : BitcoinTx) : Transaction where
  version := 1
  lockTime := tx.lockTime
  input := tx.input.map fun input =>
    { previousOutput := input.prevout, scriptSig := [], sequence := 2 ^ 32 - 1, witness := [] }
  output := tx.output

def prevouts (tx : BitcoinTx) : List OutPoint := tx.input.map Input.prevout

def amountIn (tx : BitcoinTx) : Nat := (tx.input.map Input.amount).sum

def amountOut (tx : BitcoinTx) : Nat := (tx.output.map TxOut.value).sum

section Unsigned

variable {host : Host} {tx other : BitcoinTx}

@[simp]
theorem unsigned_lockTime : tx.unsigned.lockTime = tx.lockTime := rfl

@[simp]
theorem unsigned_output : tx.unsigned.output = tx.output := rfl

theorem map_unsigned_input {β : Type} (f : Input → β) (erased : ∀ input, f input.unsigned = f input) :
    tx.unsigned.input.map f = tx.input.map f := by
  simp [unsigned, Function.comp_def, erased]

@[simp]
theorem unsigned_prevouts : tx.unsigned.prevouts = tx.prevouts :=
  map_unsigned_input Input.prevout fun _ => rfl

@[simp]
theorem unsigned_amountIn : tx.unsigned.amountIn = tx.amountIn :=
  congrArg List.sum (map_unsigned_input Input.amount fun _ => rfl)

@[simp]
theorem unsigned_amountOut : tx.unsigned.amountOut = tx.amountOut := rfl

@[simp]
theorem unsigned_skeleton : tx.unsigned.skeleton = tx.skeleton := by
  simp only [skeleton, map_unsigned_input (fun input : Input =>
    (⟨input.prevout, [], 2 ^ 32 - 1, []⟩ : TxIn)) fun _ => rfl]
  rfl

theorem skeleton_congr (same : tx.unsigned = other.unsigned) : tx.skeleton = other.skeleton := by
  rw [← unsigned_skeleton, same, unsigned_skeleton]

theorem prevouts_congr (same : tx.unsigned = other.unsigned) : tx.prevouts = other.prevouts := by
  rw [← unsigned_prevouts, same, unsigned_prevouts]

theorem output_congr (same : tx.unsigned = other.unsigned) : tx.output = other.output := by
  rw [← unsigned_output, same, unsigned_output]

theorem exists_toBitcoinTx
    (converts : ∀ input ∈ tx.input, ∃ txin, input.toTxin host = .ok txin) :
    ∃ bitcoinTx, tx.toBitcoinTx host = .ok bitcoinTx := by
  obtain ⟨inputs, converted⟩ := Outcome.exists_mapM_eq_ok.mpr converts
  exact ⟨_, by rw [BitcoinTx.toBitcoinTx, converted]; rfl⟩

/-- A transaction is converted input by input. -/
theorem toBitcoinTx_eq_ok {bitcoinTx : Transaction} :
    tx.toBitcoinTx host = .ok bitcoinTx ↔
      ∃ txins, List.Forall₂ (fun input txin => input.toTxin host = .ok txin) tx.input txins ∧
        { version := 1, lockTime := tx.lockTime, input := txins, output := tx.output } =
          bitcoinTx := by
  simp only [toBitcoinTx, Outcome.bind_eq_ok, Outcome.mapM_eq_ok, Outcome.pure_eq_ok]

theorem stripWitness_of_toBitcoinTx {bitcoinTx : Transaction}
    (converted : tx.toBitcoinTx host = .ok bitcoinTx) : bitcoinTx.stripWitness = tx.skeleton := by
  rw [toBitcoinTx_eq_ok] at converted
  obtain ⟨inputs, eachConverted, rfl⟩ := converted
  simp only [Transaction.stripWitness, skeleton, Transaction.mk.injEq, true_and, and_true]
  generalize tx.input = unsignedInputs at eachConverted ⊢
  induction eachConverted with
  | nil => rfl
  | cons head rest ih =>
      obtain ⟨witness, -, rfl⟩ := Input.toTxin_eq_ok.mp head
      rw [List.map_cons, List.map_cons, ih]

theorem txid_eq {txid : Bytes} (identified : tx.txid host = .ok txid) :
    txid = host.txHash tx.skeleton := by
  simp only [BitcoinTx.txid, Outcome.bind_eq_ok, Outcome.pure_eq_ok] at identified
  obtain ⟨bitcoinTx, converted, rfl⟩ := identified
  rw [Transaction.txid, stripWitness_of_toBitcoinTx converted]

end Unsigned

section Sign

variable {host : Host} {xpub : Xpub} {missing : ContractError}

theorem signInputs_unsigned {inputs signedInputs : List Input} {sigs remaining : List Signature}
    {count newCount : Nat}
    (signed : signInputs host xpub missing inputs sigs count =
      .ok (signedInputs, remaining, newCount)) :
    signedInputs.map Input.unsigned = inputs.map Input.unsigned := by
  induction inputs generalizing sigs count signedInputs remaining newCount with
  | nil =>
      simp only [signInputs, Except.ok.injEq, Prod.mk.injEq] at signed
      rw [← signed.1]
  | cons input rest ih =>
      simp only [signInputs, Outcome.bind_eq_ok] at signed
      obtain ⟨pubkey, -, signed⟩ := signed
      split at signed
      · cases sigs with
        | nil => simp at signed
        | cons sig sigs =>
            simp only [Outcome.bind_eq_ok, Outcome.pure_eq_ok, Prod.mk.injEq] at signed
            obtain ⟨signatures, -, count, -, ⟨others, sigs, last⟩, signedRest, rfl, -, -⟩ := signed
            rw [List.map_cons, List.map_cons, ih signedRest]
            rfl
      · simp only [Outcome.bind_eq_ok, Outcome.pure_eq_ok, Prod.mk.injEq] at signed
        obtain ⟨⟨others, sigs, last⟩, signedRest, rfl, -, -⟩ := signed
        rw [List.map_cons, List.map_cons, ih signedRest]

theorem sign_unsigned {tx signedTx : BitcoinTx} {sigs remaining : List Signature}
    (signed : tx.sign host xpub missing sigs = .ok (signedTx, remaining)) :
    signedTx.unsigned = tx.unsigned := by
  simp only [sign, Outcome.bind_eq_ok, Outcome.pure_eq_ok, Prod.mk.injEq] at signed
  obtain ⟨⟨inputs, sigs, count⟩, signedInputs, rfl, -⟩ := signed
  simp only [unsigned, signInputs_unsigned signedInputs]

end Sign

end BitcoinTx

namespace Checkpoint

/-- The first transaction, if there is one. -/
def mainTx (checkpoint : Checkpoint) : BitcoinTx :=
  ((checkpoint.batches.head?.bind fun batch => batch.batch.head?).getD BitcoinTx.default)

/-- What signatures do not change in the transactions of a checkpoint. -/
def unsignedTxs (checkpoint : Checkpoint) : List (List BitcoinTx) :=
  checkpoint.batches.map fun batch => batch.batch.map BitcoinTx.unsigned

/-- There is one batch, and it has one transaction. -/
def Single (checkpoint : Checkpoint) : Prop :=
  ∃ signedTxs tx, checkpoint.batches = [{ signedTxs, batch := [tx] }]

section MainTx

variable {checkpoint other : Checkpoint} {tx : BitcoinTx}

theorem mainTx_of_firstTx (first : checkpoint.firstTx = .ok tx) : checkpoint.mainTx = tx := by
  simp only [firstTx, Outcome.bind_eq_ok, Outcome.getOr_abort_eq_ok] at first
  obtain ⟨batch, head, headTx⟩ := first
  simp [mainTx, head, headTx]

theorem mainTx_setFirstTx {old : BitcoinTx} (first : checkpoint.firstTx = .ok old) :
    (checkpoint.setFirstTx tx).mainTx = tx := by
  simp only [firstTx, Outcome.bind_eq_ok, Outcome.getOr_abort_eq_ok] at first
  obtain ⟨batch, head, headTx⟩ := first
  cases batches : checkpoint.batches with
  | nil => simp [batches] at head
  | cons firstBatch others =>
      simp only [batches, List.head?_cons, Option.some.injEq] at head
      subst head
      cases txs : firstBatch.batch with
      | nil => simp [txs] at headTx
      | cons firstTx others => simp [mainTx, setFirstTx, batches, txs]

theorem Single.firstTx (single : checkpoint.Single) :
    checkpoint.firstTx = .ok checkpoint.mainTx := by
  obtain ⟨signedTxs, tx, batches⟩ := single
  simp [Checkpoint.firstTx, mainTx, batches, Outcome.getOr, bind, Except.bind]

theorem Single.setFirstTx (single : checkpoint.Single) (tx : BitcoinTx) :
    (checkpoint.setFirstTx tx).Single := by
  obtain ⟨signedTxs, old, batches⟩ := single
  exact ⟨signedTxs, tx, by simp [Checkpoint.setFirstTx, batches]⟩

theorem Single.congr (single : checkpoint.Single) (same : other.unsignedTxs = checkpoint.unsignedTxs) :
    other.Single := by
  obtain ⟨signedTxs, tx, batches⟩ := single
  simp only [unsignedTxs, batches, List.map_cons, List.map_nil, List.map_eq_singleton_iff] at same
  obtain ⟨⟨count, txs⟩, otherBatches, otherTxs⟩ := same
  obtain ⟨otherTx, rfl, -⟩ := otherTxs
  exact ⟨count, otherTx, otherBatches⟩

theorem mainTx_unsigned_congr (same : other.unsignedTxs = checkpoint.unsignedTxs) :
    other.mainTx.unsigned = checkpoint.mainTx.unsigned := by
  have fromTxs (cp : Checkpoint) : cp.mainTx.unsigned =
      (cp.unsignedTxs.head?.bind List.head?).getD BitcoinTx.default := by
    unfold mainTx unsignedTxs
    rcases cp.batches with _ | ⟨⟨_, _ | ⟨tx, txs⟩⟩, batches⟩ <;> rfl
  rw [fromTxs, fromTxs, same]

theorem single_new (sigset : SignatorySet) : (new sigset).Single := ⟨0, BitcoinTx.default, rfl⟩

end MainTx

section Sign

variable {host : Host} {xpub : Xpub}

theorem signTxs_unsigned {txs signedTxs : List BitcoinTx} {sigs remaining : List Signature}
    {count newCount : Nat}
    (signed : signTxs host xpub txs sigs count = .ok (signedTxs, remaining, newCount)) :
    signedTxs.map BitcoinTx.unsigned = txs.map BitcoinTx.unsigned := by
  induction txs generalizing sigs count signedTxs remaining newCount with
  | nil =>
      simp only [signTxs, Except.ok.injEq, Prod.mk.injEq] at signed
      rw [← signed.1]
  | cons tx rest ih =>
      simp only [signTxs, Outcome.bind_eq_ok, Outcome.pure_eq_ok, Prod.mk.injEq] at signed
      obtain ⟨⟨signedTx, sigs⟩, signedHead, count, -, ⟨others, left, last⟩, signedRest, rfl, -, -⟩ :=
        signed
      rw [List.map_cons, List.map_cons, ih signedRest, BitcoinTx.sign_unsigned signedHead]

theorem signBatches_unsigned {batches signedBatches : List Batch}
    {sigs remaining : List Signature}
    (signed : signBatches host xpub batches sigs = .ok (signedBatches, remaining)) :
    (signedBatches.map fun batch => batch.batch.map BitcoinTx.unsigned) =
      batches.map fun batch => batch.batch.map BitcoinTx.unsigned := by
  induction batches generalizing sigs signedBatches remaining with
  | nil =>
      simp only [signBatches, Except.ok.injEq, Prod.mk.injEq] at signed
      rw [← signed.1]
  | cons batch rest ih =>
      simp only [signBatches, Outcome.bind_eq_ok] at signed
      obtain ⟨⟨txs, sigs, count⟩, signedTxs, signed⟩ := signed
      split at signed
      · simp only [Outcome.bind_eq_ok, Outcome.pure_eq_ok, Prod.mk.injEq] at signed
        obtain ⟨⟨others, left⟩, signedRest, rfl, -⟩ := signed
        rw [List.map_cons, List.map_cons, ih signedRest, signTxs_unsigned signedTxs]
      · simp only [Outcome.pure_eq_ok, Prod.mk.injEq] at signed
        obtain ⟨rfl, -⟩ := signed
        rw [List.map_cons, List.map_cons, signTxs_unsigned signedTxs]

/-- Signing changes the signatures, and the height at which the checkpoint was
signed. -/
theorem sign_eq_ok {checkpoint signedCheckpoint : Checkpoint} {sigs : List Signature}
    {btcHeight : Nat}
    (signed : checkpoint.sign host xpub sigs btcHeight = .ok signedCheckpoint) :
    signedCheckpoint.unsignedTxs = checkpoint.unsignedTxs ∧
      signedCheckpoint = { checkpoint with
        batches := signedCheckpoint.batches
        signedAtBtcHeight := signedCheckpoint.signedAtBtcHeight } := by
  simp only [sign, Outcome.bind_eq_ok, Outcome.require_eq_ok] at signed
  obtain ⟨⟨batches, remaining⟩, signedBatches, -, -, signed⟩ := signed
  split at signed <;> obtain rfl := Outcome.pure_eq_ok.mp signed
  all_goals exact ⟨signBatches_unsigned signedBatches, rfl⟩

end Sign

section Freeze

variable {host : Host} {config : CheckpointConfig}

theorem unsigned_mapIdx_signatureMessage (bitcoinTx : Transaction) (inputs : List Input) :
    (inputs.mapIdx (BitcoinTx.signatureMessage host bitcoinTx)).map Input.unsigned =
      inputs.map Input.unsigned := by
  apply List.ext_getElem <;> simp [BitcoinTx.signatureMessage, Input.unsigned]

/-- The frozen transaction spends the inputs that fit, and its reserve output
holds what the other outputs and the fee leave. -/
theorem freezeTx_eq_ok {cpFees reserveValue : Nat} {outs : List TxOut} {tx frozenTx : BitcoinTx}
    (frozen : freezeTx host config cpFees outs tx = .ok (frozenTx, reserveValue)) :
    ∃ reserve others, (outs ++ tx.output).take config.maxOutputs = reserve :: others ∧
      frozenTx.unsigned = { tx with
        input := tx.input.take config.maxInputs
        output := { reserve with value := reserveValue } :: others : BitcoinTx }.unsigned ∧
      ((tx.input.take config.maxInputs).map Input.amount).sum =
        reserveValue + ((reserve :: others).map TxOut.value).sum + cpFees := by
  simp only [freezeTx, Outcome.bind_eq_ok, Outcome.checkedAdd_eq_ok, Outcome.require_eq_ok,
    Outcome.assert_eq_ok, Outcome.pure_eq_ok, Prod.mk.injEq] at frozen
  obtain ⟨inAmount, summedIn, outAmount, summedOut, spent, ⟨-, rfl⟩, -, covered, -, nonempty,
    bitcoinTx, -, rfl, rfl⟩ := frozen
  obtain ⟨reserve, others, outputs⟩ := List.exists_cons_of_ne_nil nonempty
  have inEq := Outcome.checkedSum_eq_ok summedIn
  have outEq := Outcome.checkedSum_eq_ok summedOut
  refine ⟨reserve, others, outputs, ?_, ?_⟩
  · simp only [BitcoinTx.unsigned, unsigned_mapIdx_signatureMessage, outputs, List.modifyHead_cons]
  · rw [outputs] at outEq
    omega

theorem asUsize_le (limit : Nat) : asUsize limit ≤ limit := Nat.mod_le _ _

/-- A limit that counts what it keeps keeps the same as an index. -/
theorem take_asUsize {α : Type} {limit : Nat} {xs : List α}
    (counted : min limit xs.length ≤ asUsize limit) : xs.take (asUsize limit) = xs.take limit := by
  rw [List.take_eq_take_iff]
  have := asUsize_le limit
  omega

/-- The additional outputs are the reserve and the commitment, without value. -/
theorem additionalOutputs_eq_ok {checkpoint : Checkpoint} {commitment : Bytes} {outs : List TxOut}
    (added : checkpoint.additionalOutputs host config commitment = .ok outs) :
    ∃ reserveScript commitmentScript,
      checkpoint.sigset.outputScript host [0] config.sigsetThreshold = .ok reserveScript ∧
        outs = [⟨0, reserveScript⟩, ⟨0, commitmentScript⟩] := by
  simp only [additionalOutputs, Outcome.bind_eq_ok, Outcome.pure_eq_ok] at added
  obtain ⟨reserveScript, reserveOk, commitmentScript, -, rfl⟩ := added
  exact ⟨reserveScript, commitmentScript, reserveOk, rfl⟩

end Freeze

end Checkpoint

end CwBitcoin
