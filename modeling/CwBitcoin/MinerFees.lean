import CwBitcoin.CallInvariants
import CwBitcoin.SigningState
import CwBitcoin.TransactionSize

/-!
# The miner fee of a checkpoint transaction

A checkpoint is charged for its estimated size before it is frozen.  For every
input the estimate allows more than any witness can take, so the signed transaction
is not larger than estimated, whatever signatures it has.
-/

namespace CwBitcoin

open Script

section WitnessSize

theorem SignatorySet.WellFormed.length_redeemScript_le {sigset : SignatorySet}
    (wellFormed : sigset.WellFormed) {dest : Bytes} {ratio : Nat × Nat} {script : Script}
    (scripted : sigset.redeemScript dest ratio = .ok script) :
    script.length ≤ 80 * sigset.signatories.length + dest.length + 20 := by
  obtain ⟨first, others, threshold, shape, -, -, rfl⟩ :=
    (redeemScript_eq_ok wellFormed).mp scripted
  have bounds := @WellFormed.truncatedSigner_bounds sigset wellFormed
  rw [shape, List.map_cons] at bounds
  have length := (ThresholdScript.length_whole_bounds
    (fun signer member => by rw [(bounds member).1]; decide)
    (fun signer member => (bounds member).2.trans (by decide))
    (natAbs_asI64_lt (threshold >>> sigset.getTruncation 23)) : dest.length ≤ _ ∧ _).2
  rw [List.length_map] at length
  rw [shape, List.length_cons]
  exact length

theorem ThresholdSig.length_putSig (pubkey : Pubkey) (sig : Signature)
    (sigs : List (Pubkey × Share)) : (putSig pubkey sig sigs).length = sigs.length := by
  have sameKeys : ((putSig pubkey sig sigs).map shareKey).length = (sigs.map shareKey).length :=
    congrArg List.length map_shareKey_putSig
  rwa [List.length_map, List.length_map] at sameKeys

namespace Input

/-- The set whose output an input spends. -/
structure SecuredBy (input : Input) (sigset : SignatorySet) : Prop where
  wellFormed : sigset.WellFormed
  scripted : ∃ ratio, sigset.redeemScript input.dest ratio = .ok input.redeemScript
  estWitnessVsize_eq : input.estWitnessVsize = sigset.estWitnessVsize
  length_eq : input.signatures.sigs.length = sigset.signatories.length

/-- An input spends the output of some signatory set. -/
def Secured (input : Input) : Prop := ∃ sigset, input.SecuredBy sigset

/-- Every signature of an input is at most 73 bytes long in DER form, with the
byte of the hash type. -/
def ShortSignatures (host : Host) (input : Input) : Prop :=
  ∀ entry ∈ input.signatures.sigs,
    ∀ element ∈ (ThresholdSig.witnessElement host entry.2).toOption, element.length ≤ 73

instance (host : Host) (input : Input) : Decidable (input.ShortSignatures host) :=
  inferInstanceAs (Decidable (∀ entry ∈ input.signatures.sigs, _))

variable {host : Host} {input other : Input} {sigset : SignatorySet}

theorem SecuredBy.of_new {prevout : OutPoint} {dest : Bytes} {amount : Nat} {ratio : Nat × Nat}
    (wellFormed : sigset.WellFormed)
    (made : Input.new host prevout sigset dest amount ratio = .ok input) :
    input.SecuredBy sigset := by
  obtain ⟨-, -, estimate, redeemed, started⟩ := Input.new_eq_ok made
  have signers := congrArg ThresholdSig.sigs (ThresholdSig.ofShares_eq_ok started).2
  refine ⟨wellFormed, ⟨ratio, ?_⟩, estimate, ?_⟩
  · rw [Input.dest_of_new made]
    exact redeemed
  · rw [signers]
    exact List.length_map ..

theorem Secured.congr (secured : input.Secured) (same : other.unsigned = input.unsigned)
    (sameLength : other.signatures.sigs.length = input.signatures.sigs.length) :
    other.Secured := by
  obtain ⟨sigset, wellFormed, scripted, estWitnessVsize_eq, length_eq⟩ := secured
  obtain ⟨-, -, sameScript, -, sameDest, -, sameSize, -⟩ := Input.mk.inj same
  refine ⟨sigset, wellFormed, ?_, sameSize.trans estWitnessVsize_eq, sameLength.trans length_eq⟩
  rw [sameDest, sameScript]
  exact scripted

theorem Secured.step (secured : input.Secured) (step : input.Step host other) : other.Secured := by
  cases step with
  | skipped => exact secured
  | added added =>
      obtain ⟨share, -, -, -, rfl⟩ := ThresholdSig.sign_eq_ok added
      refine secured.congr (show Input.unsigned _ = Input.unsigned _ from rfl) ?_
      exact ThresholdSig.length_putSig _ _ _

theorem sizedLength_witnessElement_le (short : input.ShortSignatures host)
    {entry : Pubkey × Share} (member : entry ∈ input.signatures.sigs) {element : Bytes}
    (made : ThresholdSig.witnessElement host entry.2 = .ok element) : sizedLength element ≤ 74 := by
  have lengthLe : element.length ≤ 73 := short entry member element (by rw [made]; rfl)
  rw [sizedLength, varIntLength_of_lt (by omega)]
  omega

theorem sum_sizedLength_le (short : input.ShortSignatures host)
    {entries : List (Pubkey × Share)} {witness : List Bytes}
    (members : ∀ entry ∈ entries, entry ∈ input.signatures.sigs)
    (made : List.Forall₂ (fun entry element =>
      ThresholdSig.witnessElement host entry.2 = .ok element) entries witness) :
    (witness.map sizedLength).sum ≤ 74 * witness.length := by
  induction made with
  | nil => exact Nat.zero_le _
  | cons head _ ih =>
      rw [List.forall_mem_cons] at members
      have headLe := sizedLength_witnessElement_le short members.1 head
      have restLe := ih members.2
      rw [List.map_cons, List.sum_cons, List.length_cons]
      omega

/-- A witness takes less than four times its estimate. -/
theorem Secured.witnessSize_le (secured : input.Secured) (nearby : input.dest.length ≤ 100)
    (short : input.ShortSignatures host) {txin : TxIn}
    (converted : input.toTxin host = .ok txin) :
    txin.witnessSize + 2 ≤ 4 * input.estWitnessVsize := by
  obtain ⟨sigset, wellFormed, ⟨ratio, scripted⟩, estimate, length⟩ := secured
  have scriptLe := wellFormed.length_redeemScript_le scripted
  have few := wellFormed.length_le
  rw [MAX_SIGNATORIES] at few
  obtain ⟨witness, made, rfl⟩ := toTxin_eq_ok.mp converted
  rw [estimate, SignatorySet.estWitnessVsize, TxIn.witnessSize]
  unfold ThresholdSig.toWitness at made
  cases isSigned : input.signatures.signed with
  | false =>
      rw [isSigned, if_neg Bool.false_ne_true] at made
      obtain rfl := Except.ok.inj made
      simp only [Bool.false_eq_true, if_false, List.length_nil, List.map_nil, List.sum_nil]
      rw [varIntLength_of_lt (by decide)]
      omega
  | true =>
      rw [isSigned, if_pos rfl, Outcome.mapM_eq_ok] at made
      have elements : witness.length = sigset.signatories.length := by
        rw [← made.length_eq, List.length_insertionSort, length]
      have total := sum_sizedLength_le short
        (fun entry member => (List.perm_insertionSort _ _).mem_iff.mp member) made
      have scriptSize : sizedLength input.redeemScript ≤ 3 + input.redeemScript.length := by
        have atMost : varIntLength input.redeemScript.length ≤ varIntLength 0xffff :=
          varIntLength_mono (by omega)
        exact Nat.add_le_add_right atMost _
      simp only [if_true, List.map_append, List.sum_append, List.map_singleton,
        List.sum_singleton, List.length_append, List.length_singleton, elements]
      rw [varIntLength_of_lt (by omega)]
      omega

end Input

/-- The witnesses of a transaction with their marker take less than four times
their estimates. -/
theorem witnessesSize_le {host : Host} {inputs : List Input} {txins : List TxIn}
    (bounded : ∀ input ∈ inputs, ∀ txin, input.toTxin host = .ok txin →
      txin.witnessSize + 2 ≤ 4 * input.estWitnessVsize)
    (converted : List.Forall₂ (fun input txin => input.toTxin host = .ok txin) inputs txins) :
    witnessesSize txins ≤ 4 * (inputs.map Input.estWitnessVsize).sum := by
  have total : (txins.map TxIn.witnessSize).sum + 2 * inputs.length ≤
      4 * (inputs.map Input.estWitnessVsize).sum := by
    induction converted with
    | nil => exact Nat.zero_le _
    | cons head _ ih =>
        rw [List.forall_mem_cons] at bounded
        have headLe := bounded.1 _ head
        have restLe := ih bounded.2
        simp only [List.map_cons, List.sum_cons, List.length_cons]
        omega
  unfold witnessesSize
  split
  · exact Nat.zero_le _
  · rename_i someWitness
    have nonempty : inputs.length ≠ 0 := by
      intro empty
      apply someWitness
      have noTxins := List.eq_nil_of_length_eq_zero (converted.length_eq.symm.trans empty)
      rw [noTxins]
      exact nofun
    omega

/-- A transaction is not larger than its inputs with their estimates and its
outputs, whatever has been signed. -/
theorem BitcoinTx.vsize_le {host : Host} {tx : BitcoinTx} {bitcoinTx : Transaction}
    (bounded : ∀ input ∈ tx.input, ∀ txin, input.toTxin host = .ok txin →
      txin.witnessSize + 2 ≤ 4 * input.estWitnessVsize)
    (converted : tx.toBitcoinTx host = .ok bitcoinTx) :
    bitcoinTx.vsize ≤ 8 + estInputsSize tx.input + outputsSize tx.output := by
  obtain ⟨txins, eachConverted, rfl⟩ := BitcoinTx.toBitcoinTx_eq_ok.mp converted
  have witnesses := witnessesSize_le bounded eachConverted
  rw [Transaction.vsize_eq, Transaction.baseSize, baseSize_of_converted eachConverted,
    ← eachConverted.length_eq, estInputsSize_eq]
  simp only
  omega

end WitnessSize

namespace Checkpoint

/-- How a frozen checkpoint was charged for while it was under construction. -/
structure Priced (host : Host) (checkpoint : Checkpoint) where
  building : Checkpoint
  config : CheckpointConfig
  commitment : Bytes
  vsize : Nat
  vsize_eq : building.estVsize host config commitment = .ok vsize
  cpFees : Nat
  baseFee_le : building.feeRate * vsize ≤ cpFees
  outs : List TxOut
  outs_eq : building.additionalOutputs host config commitment = .ok outs
  frozenTx : BitcoinTx
  reserveValue : Nat
  frozen_eq : freezeTx host config cpFees outs building.mainTx = .ok (frozenTx, reserveValue)
  unsigned_eq : checkpoint.mainTx.unsigned = frozenTx.unsigned
  feeRate_eq : checkpoint.feeRate = building.feeRate

/-- The limits, taken as indexes, count every input and output that they keep of
a transaction with the additional outputs. -/
structure EstimatesAll (config : CheckpointConfig) (tx : BitcoinTx) : Prop where
  inputs : min config.maxInputs tx.input.length ≤ asUsize config.maxInputs
  outputs : min config.maxOutputs (tx.output.length + 2) ≤ asUsize config.maxOutputs

instance (config : CheckpointConfig) (tx : BitcoinTx) : Decidable (EstimatesAll config tx) :=
  decidable_of_iff (_ ∧ _) ⟨fun both => ⟨both.1, both.2⟩, fun all => ⟨all.inputs, all.outputs⟩⟩

theorem estimatesAll_of_lt {config : CheckpointConfig} (tx : BitcoinTx)
    (inputsLt : config.maxInputs < 2 ^ 32) (outputsLt : config.maxOutputs < 2 ^ 32) :
    EstimatesAll config tx := by
  constructor
  · rw [asUsize, Nat.mod_eq_of_lt inputsLt]
    exact min_le_left _ _
  · rw [asUsize, Nat.mod_eq_of_lt outputsLt]
    exact min_le_left _ _

namespace Priced

variable {host : Host} {checkpoint other : Checkpoint} (priced : checkpoint.Priced host)

/-- Signatures do not change how a checkpoint was charged for. -/
def congr (same : other.mainTx.unsigned = checkpoint.mainTx.unsigned)
    (sameRate : other.feeRate = checkpoint.feeRate) : other.Priced host :=
  { priced with
    unsigned_eq := same.trans priced.unsigned_eq
    feeRate_eq := sameRate.trans priced.feeRate_eq }

/-- What the transaction takes in covers what it pays out and the fee. -/
theorem amountOut_add_cpFees_le :
    checkpoint.mainTx.amountOut + priced.cpFees ≤ checkpoint.mainTx.amountIn := by
  obtain ⟨reserve, others, -, unsigned_eq, amounts⟩ := freezeTx_eq_ok priced.frozen_eq
  have same := priced.unsigned_eq.trans unsigned_eq
  rw [← BitcoinTx.unsigned_amountOut, ← BitcoinTx.unsigned_amountIn, same,
    BitcoinTx.unsigned_amountOut, BitcoinTx.unsigned_amountIn]
  simp only [BitcoinTx.amountOut, BitcoinTx.amountIn, List.map_cons, List.sum_cons] at amounts ⊢
  omega

theorem estInputsSize_eq : estInputsSize checkpoint.mainTx.input =
    estInputsSize (priced.building.mainTx.input.take priced.config.maxInputs) := by
  obtain ⟨reserve, others, -, unsigned_eq, -⟩ := freezeTx_eq_ok priced.frozen_eq
  exact estInputsSize_congr (congrArg BitcoinTx.input (priced.unsigned_eq.trans unsigned_eq))

theorem outputsSize_eq : outputsSize checkpoint.mainTx.output =
    outputsSize ((priced.outs ++ priced.building.mainTx.output).take priced.config.maxOutputs) := by
  obtain ⟨reserve, others, outputs, unsigned_eq, -⟩ := freezeTx_eq_ok priced.frozen_eq
  have same := BitcoinTx.output_congr (priced.unsigned_eq.trans unsigned_eq)
  apply outputsSize_congr
  rw [same, outputs]
  rfl

include priced in
/-- A checkpoint is charged for all of its transaction, and for the witnesses that
it had before, when the limits count everything. -/
theorem vsize_eq_measured (measures : host.MeasuresWeight)
    (all : EstimatesAll priced.config priced.building.mainTx) :
    priced.vsize = 8 + CwBitcoin.estInputsSize checkpoint.mainTx.input +
      outputsSize checkpoint.mainTx.output +
      priced.building.countedWitnesses host priced.config := by
  obtain ⟨outs, added, vsizeEq⟩ := estVsize_measured measures priced.vsize_eq
  obtain rfl := Except.ok.inj (added.symm.trans priced.outs_eq)
  obtain ⟨reserveScript, commitmentScript, -, outsEq⟩ := additionalOutputs_eq_ok priced.outs_eq
  have twoMore : (priced.outs ++ priced.building.mainTx.output).length =
      priced.building.mainTx.output.length + 2 := by
    rw [outsEq, List.length_append, Nat.add_comm]
    rfl
  rw [vsizeEq, priced.estInputsSize_eq, priced.outputsSize_eq, countedInputs, countedOutputs,
    take_asUsize all.inputs, take_asUsize (twoMore ▸ all.outputs)]

end Priced

end Checkpoint

namespace Checkpoint

variable {host : Host} {checkpoint signedCheckpoint : Checkpoint}

/-- The only transaction of a batch is signed. -/
theorem signBatches_singleton {xpub : Xpub} {sigs remaining : List Signature} {signedTxs : Nat}
    {tx : BitcoinTx} {batches : List Batch}
    (signed : signBatches host xpub [{ signedTxs, batch := [tx] }] sigs = .ok (batches, remaining)) :
    ∃ missing count signedTx left, tx.sign host xpub missing sigs = .ok (signedTx, left) ∧
      batches = [{ signedTxs := count, batch := [signedTx] }] := by
  simp only [signBatches, signTxs, Outcome.bind_eq_ok, Outcome.pure_eq_ok] at signed
  obtain ⟨_, ⟨⟨signedTx, left⟩, signedTxOk, count, -, _, ended, rfl⟩, signed⟩ := signed
  obtain rfl := Except.ok.inj ended
  refine ⟨_, count, signedTx, left, signedTxOk, ?_⟩
  split at signed
  · simp only [Outcome.bind_eq_ok, Outcome.pure_eq_ok] at signed
    obtain ⟨_, rest, same⟩ := signed
    obtain rfl := Except.ok.inj rest
    exact (Prod.mk.inj same).1.symm
  · exact (Prod.mk.inj (Outcome.pure_eq_ok.mp signed)).1.symm

/-- Signing adds signatures to the inputs one by one. -/
theorem Single.sign_steps (single : checkpoint.Single) {xpub : Xpub} {sigs : List Signature}
    {btcHeight : Nat} (signed : checkpoint.sign host xpub sigs btcHeight = .ok signedCheckpoint) :
    List.Forall₂ (Input.Step host) checkpoint.mainTx.input signedCheckpoint.mainTx.input := by
  obtain ⟨signedTxs, tx, batchesEq⟩ := single
  simp only [Checkpoint.sign, batchesEq, Outcome.bind_eq_ok] at signed
  obtain ⟨⟨batches, remaining⟩, signedBatches, -, -, signed⟩ := signed
  obtain ⟨missing, count, signedTx, left, signedTxOk, rfl⟩ := signBatches_singleton signedBatches
  have sameBatches : signedCheckpoint.batches = [{ signedTxs := count, batch := [signedTx] }] := by
    split at signed <;> rw [← Outcome.pure_eq_ok.mp signed]
  have before : checkpoint.mainTx = tx := by simp [mainTx, batchesEq]
  have after : signedCheckpoint.mainTx = signedTx := by simp [mainTx, sameBatches]
  rw [before, after]
  simp only [BitcoinTx.sign, Outcome.bind_eq_ok, Outcome.pure_eq_ok, Prod.mk.injEq] at signedTxOk
  obtain ⟨⟨inputs, sigs, signedInputs⟩, signedEach, rfl, -⟩ := signedTxOk
  exact (BitcoinTx.signInputs_counted signedEach).1

theorem feeRate_completed {xpub : Xpub} {sigs : List Signature} {btcHeight : Nat}
    (signed : checkpoint.sign host xpub sigs btcHeight = .ok signedCheckpoint) :
    (checkpoint.completed signedCheckpoint).feeRate = checkpoint.feeRate := by
  have sameRate : signedCheckpoint.feeRate = checkpoint.feeRate := by
    simp only [Checkpoint.sign, Outcome.bind_eq_ok] at signed
    obtain ⟨⟨batches, remaining⟩, -, -, -, signed⟩ := signed
    split at signed <;> rw [← Outcome.pure_eq_ok.mp signed]
  unfold completed
  split <;> exact sameRate

/-- Every input of a checkpoint spends the output of a signatory set. -/
def AllSecured (checkpoint : Checkpoint) : Prop :=
  ∀ input ∈ checkpoint.mainTx.input, input.Secured

end Checkpoint

theorem forall_secured_of_maps {inputs others : List Input}
    (secured : ∀ input ∈ inputs, input.Secured)
    (unsigned : others.map Input.unsigned = inputs.map Input.unsigned)
    (sigs : others.map (fun input => input.signatures.sigs) =
      inputs.map fun input => input.signatures.sigs) : ∀ input ∈ others, input.Secured := by
  induction others generalizing inputs with
  | nil => exact nofun
  | cons other others ih =>
      cases inputs with
      | nil => cases unsigned
      | cons input inputs =>
          rw [List.map_cons, List.map_cons, List.cons.injEq] at unsigned sigs
          rw [List.forall_mem_cons] at secured ⊢
          exact ⟨secured.1.congr unsigned.1 (congrArg List.length sigs.1),
            ih secured.2 unsigned.2 sigs.2⟩

namespace Contract

variable {host : Host} {store : Store} {call : Call}

theorem preservesEach_allSecured : PreservesEach host store call Checkpoint.AllSecured where
  credited := by
    intro deposit queue credited _ _ _ wellFormed holds
    rw [Checkpoint.AllSecured, credited.mainTx_eq, List.forall_mem_append,
      List.forall_mem_singleton]
    exact ⟨holds, _, .of_new wellFormed credited.input_eq⟩
  withdrawn := by
    intro queue after withdrawn _ _ holds
    rw [Checkpoint.AllSecured, withdrawn.mainTx_eq]
    exact holds
  signed := by
    intro signature checkpoint signedCheckpoint _ single _ holds signed
    have steps := single.sign_steps signed
    rw [Checkpoint.AllSecured, Checkpoint.mainTx_completed]
    intro input member
    obtain ⟨index, inBounds, rfl⟩ := List.getElem_of_mem member
    have oldInBounds : index < checkpoint.mainTx.input.length := steps.length_eq ▸ inBounds
    exact (holds _ (List.getElem_mem oldInBounds)).step (steps.get oldInBounds inBounds)
  paidOut := fun holds => holds
  started := by
    intro sigset depositsEnabled input member
    cases member
  rolled := by
    intro hash unitsPerSat before after rollover _ _ wellFormed holds
    constructor
    · obtain ⟨-, bitcoinTx, -, inputs⟩ := Checkpoint.freezeTx_messages rollover.frozen_eq
      intro input member
      rw [rollover.mainTx_frozen, inputs] at member
      obtain ⟨index, inBounds, rfl⟩ := List.mem_mapIdx.mp member
      have secured := holds _ (List.mem_of_mem_take (List.getElem_mem inBounds))
      exact secured.congr (show Input.unsigned _ = Input.unsigned _ from rfl) rfl
    · change ∀ input ∈ rollover.reserveInput :: rollover.excess, input.Secured
      rw [List.forall_mem_cons]
      refine ⟨⟨_, .of_new wellFormed rollover.reserveInput_eq⟩, ?_⟩
      refine forall_secured_of_maps ?_ rollover.excess_eq rollover.excess_sigs
      intro input member
      exact holds input (List.mem_of_mem_drop (List.mem_reverse.mp member))

end Contract

namespace QueueStore

variable {queue after : QueueStore} {dests : Payouts}

/-- Taking the pending transfers leaves the transaction under construction alone. -/
theorem mainTx_takePendingCompleted (Holds : BitcoinTx → Prop)
    (holds : ∀ checkpoint ∈ queue.window.item queue.buildingIndex, Holds checkpoint.mainTx)
    (taken : queue.takePendingCompleted = .ok (after, dests)) :
    ∀ checkpoint ∈ after.window.item after.buildingIndex, Holds checkpoint.mainTx := by
  apply takePendingCompleted_invariant (fun current =>
    ∀ checkpoint ∈ current.window.item current.buildingIndex, Holds checkpoint.mainTx) _ _ holds
    taken
  · intro current index checkpoint currentHolds got replaced found
    obtain ⟨-, foundOld⟩ := get_eq_ok.mp got
    rw [window_put, Window.item_put foundOld, Option.mem_def] at found
    split at found
    · rename_i same
      obtain rfl := Option.some.inj found
      exact currentHolds checkpoint (same ▸ foundOld)
    · exact currentHolds replaced found
  · intro current _ currentHolds
    exact currentHolds

end QueueStore

/-- The limits count everything of the transaction under construction. -/
def Store.EstimatesAll (store : Store) : Prop :=
  ∀ building ∈ store.queue.window.item store.queue.buildingIndex,
    Checkpoint.EstimatesAll store.checkpointConfig building.mainTx

instance (store : Store) : Decidable store.EstimatesAll :=
  inferInstanceAs (Decidable (∀ building ∈ store.queue.window.item store.queue.buildingIndex, _))

namespace Contract

/-- The limits count everything when a checkpoint is pushed. -/
def PushesEstimated (host : Host) (store : Store) (call : Call) : Prop :=
  Pushes host store call → store.EstimatesAll

instance (host : Host) (store : Store) (call : Call) :
    Decidable (PushesEstimated host store call) :=
  inferInstanceAs (Decidable (_ → _))

/-- A checkpoint that is frozen has been charged for, under limits that fit its
transaction. -/
def PricedUnder (host : Host) (Fits : CheckpointConfig → BitcoinTx → Prop)
    (checkpoint : Checkpoint) : Prop :=
  checkpoint.status ≠ .building → ∃ priced : checkpoint.Priced host,
    Fits priced.config priced.building.mainTx

variable {host : Host} {store : Store} {call : Call} {checkpoint other : Checkpoint}
  {Fits : CheckpointConfig → BitcoinTx → Prop}

theorem PricedUnder.congr (priced : PricedUnder host Fits checkpoint)
    (notBuilding : checkpoint.status ≠ .building)
    (same : other.mainTx.unsigned = checkpoint.mainTx.unsigned)
    (sameRate : other.feeRate = checkpoint.feeRate) : PricedUnder host Fits other := by
  intro _
  obtain ⟨priced, fits⟩ := priced notBuilding
  exact ⟨priced.congr same sameRate, fits⟩

theorem preserves_pricedUnder (shaped : store.queue.Shaped)
    (holds : store.queue.Each (PricedUnder host Fits))
    (permitted : Pushes host store call →
      ∀ building ∈ store.queue.window.item store.queue.buildingIndex,
        Fits store.checkpointConfig building.mainTx) :
    Preserves host store call (QueueStore.Each (PricedUnder host Fits)) where
  credited := by
    intro deposit after _ credited
    have ordered := shaped.ordered_of_split credited.checkpoints_eq
    rw [credited.after_eq]
    apply holds.replaceBuilding ordered credited.checkpoints_eq
    intro notBuilding
    exact absurd (ordered.last (ordered.item_building credited.checkpoints_eq)) notBuilding
  withdrawn := by
    intro queue after queueShaped queueHolds withdrawn
    have ordered := queueShaped.ordered_of_split withdrawn.checkpoints_eq
    rw [withdrawn.after_eq]
    apply queueHolds.replaceBuilding ordered withdrawn.checkpoints_eq
    intro notBuilding
    exact absurd (ordered.last (ordered.item_building withdrawn.checkpoints_eq)) notBuilding
  signed := by
    intro signature after _ signed
    obtain ⟨checkpoint, signedCheckpoint, found, notBuilding, signedOk, rfl⟩ :=
      QueueStore.sign_completed signed
    apply holds.put found
    refine (holds _ _ found).congr notBuilding ?_ ?_
    · rw [Checkpoint.mainTx_completed]
      exact Checkpoint.mainTx_unsigned_congr (Checkpoint.sign_eq_ok signedOk).1
    · exact Checkpoint.feeRate_completed signedOk
  confirmed := fun _ _ _ => holds
  paidOut := by
    intro queue index checkpoint _ queueHolds got
    obtain ⟨-, found⟩ := QueueStore.get_eq_ok.mp got
    refine queueHolds.put found ?_
    intro notBuilding
    exact (queueHolds _ _ found).congr notBuilding rfl rfl notBuilding
  handled := fun queueHolds => queueHolds
  started := by
    intro before after _ first
    refine QueueStore.each_of_singleton first.checkpoints_after ?_
    intro notBuilding
    exact absurd rfl notBuilding
  rolled := by
    intro hash dests unitsPerSat queue after isClock taken should queueShaped queueHolds rollover
    have pushes := pushes_of_shouldPush isClock taken should
    have fits : Fits store.checkpointConfig rollover.building.mainTx :=
      QueueStore.mainTx_takePendingCompleted _ (permitted pushes) taken _ rollover.item_building
    apply queueHolds.rollover rollover
    · intro _
      exact ⟨{
        building := rollover.building
        config := store.checkpointConfig
        commitment := hash
        vsize := rollover.vsize
        vsize_eq := rollover.vsize_eq
        cpFees := rollover.cpFees
        baseFee_le := rollover.baseFee_le
        outs := rollover.outs
        outs_eq := rollover.outs_eq
        frozenTx := rollover.frozenTx
        reserveValue := rollover.reserveValue
        frozen_eq := rollover.frozen_eq
        unsigned_eq := by rw [rollover.mainTx_frozen]
        feeRate_eq := rfl }, fits⟩
    · exact fun notBuilding => absurd rfl notBuilding

/-- Every frozen checkpoint of a run has been charged for, under limits that fit
its transaction if those at every push do. -/
theorem run_pricedUnder {permit : Store → Call → Prop} {info : MessageInfo} {msg : InstantiateMsg}
    {calls : List Call}
    (fits : ∀ store call, permit store call → Pushes host store call →
      ∀ building ∈ store.queue.window.item store.queue.buildingIndex,
        Fits store.checkpointConfig building.mainTx)
    (permitted : (machine host).Permitted ((machine host).OnSuccess permit)
      (instantiate host info msg) calls) :
    ((machine host).run (instantiate host info msg) calls).queue.Each (PricedUnder host Fits) := by
  have start : (instantiate host info msg).queue.Each (PricedUnder host Fits) :=
    QueueStore.each_of_empty rfl
  exact (run_preserves (QueueStore.Each (PricedUnder host Fits))
    (fun store call shaped holds allowed =>
      preserves_pricedUnder shaped holds (fits store call allowed))
    (.empty rfl rfl) start permitted).2

/-- In a run in which the limits count everything whenever a checkpoint is pushed,
the transaction of a frozen checkpoint is not larger than the size that was charged
for, whatever signatures it has, so its fee covers its size at the fee rate. -/
theorem run_fee_covers_size (host : Host) (measures : host.MeasuresWeight) (info : MessageInfo)
    (msg : InstantiateMsg) (calls : List Call)
    (permitted : (machine host).Permitted ((machine host).OnSuccess (PushesEstimated host))
      (instantiate host info msg) calls) :
    let store := (machine host).run (instantiate host info msg) calls
    ∀ index checkpoint, store.queue.get index = .ok checkpoint → checkpoint.status ≠ .building →
      (∀ input ∈ checkpoint.mainTx.input, input.dest.length ≤ 100 ∧ input.ShortSignatures host) →
      ∀ bitcoinTx, checkpoint.mainTx.toBitcoinTx host = .ok bitcoinTx →
        ∃ priced : checkpoint.Priced host, bitcoinTx.vsize ≤ priced.vsize ∧
          checkpoint.mainTx.amountOut + checkpoint.feeRate * bitcoinTx.vsize ≤
            checkpoint.mainTx.amountIn := by
  intro store index checkpoint got notBuilding usual bitcoinTx converted
  obtain ⟨-, found⟩ := QueueStore.get_eq_ok.mp got
  have eachPriced : store.queue.Each (PricedUnder host Checkpoint.EstimatesAll) :=
    run_pricedUnder (fun _ _ allowed => allowed) permitted
  have eachSecured := run_each Checkpoint.AllSecured
    (fun _ _ _ => preservesEach_allSecured) permitted
  obtain ⟨priced, all⟩ := eachPriced _ _ found notBuilding
  have secured := eachSecured _ _ found
  have sizeLe : bitcoinTx.vsize ≤ priced.vsize := by
    rw [priced.vsize_eq_measured measures all]
    refine (BitcoinTx.vsize_le ?_ converted).trans (Nat.le_add_right _ _)
    intro input member txin txinOk
    exact (secured input member).witnessSize_le (usual input member).1 (usual input member).2 txinOk
  refine ⟨priced, sizeLe, ?_⟩
  have covered := priced.amountOut_add_cpFees_le
  have charged := priced.baseFee_le
  have feeLe := Nat.mul_le_mul_left checkpoint.feeRate sizeLe
  rw [← priced.feeRate_eq] at charged
  omega

end Contract

namespace Sample

/-- The sample host with the sizes of transactions. -/
def sizedHost : Host := { host with vsize := Transaction.vsize }

/-- Five withdrawals from the second checkpoint, which ends under a limit of
outputs that is zero as a 32-bit number. -/
def underpricedCalls : List Contract.Call := openingCalls largeDepositTx ++ [
  .clockEndBlock querier (env 1000) [1],
  relayDepositAt 1010 7 largeDepositTx "a",
  .clockEndBlock querier (env 1400) [2],
  signFirst,
  executeAt 1420 (.updateBitcoinConfig { BitcoinConfig.default with minWithdrawalCheckpoints := 0 }),
  .clockEndBlock querier (env 1420) [3]] ++
  List.replicate 5 (.execute querier (env 1430)
    { sender := "a", funds := [⟨"factory/factory/obtc", 1000000000000⟩] }
    (.withdrawToBitcoin "b")) ++ [
  executeAt 1440 (.updateCheckpointConfig
    { CheckpointConfig.default with maxOutputs := 2 ^ 32 }),
  .clockEndBlock querier (env 1100000) [4]]

/-- The transaction of a checkpoint as the network takes it. -/
def bitcoinTxAt (store : Store) (index : Nat) : Transaction :=
  match (checkpointAt store index).mainTx.toBitcoinTx sizedHost with
  | .ok tx => tx
  | .error _ => { version := 0, lockTime := 0, input := [], output := [] }

end Sample

namespace Contract

theorem run_fee_covers_size_signed :
    let store := (machine Sample.sizedHost).run Sample.initial
      (Sample.setupCalls ++ [Sample.signFirst])
    (Sample.checkpointAt store 0).status = .complete ∧
      ∃ priced : (Sample.checkpointAt store 0).Priced Sample.sizedHost,
        (Sample.bitcoinTxAt store 0).vsize ≤ priced.vsize ∧
          (Sample.checkpointAt store 0).mainTx.amountOut +
              (Sample.checkpointAt store 0).feeRate * (Sample.bitcoinTxAt store 0).vsize ≤
            (Sample.checkpointAt store 0).mainTx.amountIn :=
  ⟨by decide +kernel, run_fee_covers_size Sample.sizedHost (fun _ => rfl) Sample.info
    Sample.instantiateMsg (Sample.setupCalls ++ [Sample.signFirst]) (by decide +kernel) 0
    (Sample.checkpointAt _ 0) (by decide +kernel) (by decide +kernel) (by decide +kernel)
    (Sample.bitcoinTxAt _ 0) (by decide +kernel)⟩

/-- With a limit of outputs that is zero as an index, a checkpoint is charged for
less than it takes. -/
theorem run_fee_below_size :
    let store := (machine Sample.sizedHost).run Sample.initial Sample.underpricedCalls
    let checkpoint := Sample.checkpointAt store 1
    (store.queue.get 1 = .ok checkpoint ∧ checkpoint.status = .signing ∧
        (∀ input ∈ checkpoint.mainTx.input, input.dest.length ≤ 100) ∧
        (∀ input ∈ checkpoint.mainTx.input, ∀ entry ∈ input.signatures.sigs,
          entry.2.sig = none) ∧
        checkpoint.mainTx.toBitcoinTx Sample.sizedHost = .ok (Sample.bitcoinTxAt store 1)) ∧
      checkpoint.mainTx.amountIn < checkpoint.mainTx.amountOut +
        checkpoint.feeRate * (Sample.bitcoinTxAt store 1).vsize := by
  decide +kernel

end Contract

end CwBitcoin
