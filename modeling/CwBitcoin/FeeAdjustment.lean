import CwBitcoin.MinerFees
import CwBitcoin.Payouts
import Mathlib.Data.Set.List

/-!
# The fee adjustment of a chain of checkpoints

The fee of a checkpoint is raised by what the unconfirmed checkpoints before it
paid too little.  For this their sizes are estimated again, from transactions that
have their additional outputs and their witnesses already.
-/

namespace CwBitcoin

/-- A frozen checkpoint with the size that it was charged for. -/
structure PricedCheckpoint (host : Host) where
  checkpoint : Checkpoint
  priced : checkpoint.Priced host

namespace PricedCheckpoint

variable {host : Host} (current : PricedCheckpoint host) (config : CheckpointConfig)

def minerFee : Nat := current.checkpoint.mainTx.amountIn - current.checkpoint.mainTx.amountOut

/-- What was paid beyond a fee rate for the size that was charged for. -/
def surplus (feeRate : Nat) : Nat := current.minerFee - feeRate * current.priced.vsize

/-- The outputs that are counted again, with other additional outputs in front of
those that the transaction has. -/
def countedOutputs : List TxOut :=
  current.checkpoint.countedOutputs config
    ((current.checkpoint.additionalOutputs host config (List.replicate 32 0)).toOption.getD [])

/-- How much larger the outputs, the inputs with their estimates, and the witnesses
are now than when they were charged for. -/
def recounted : Int :=
  ((outputsSize (current.countedOutputs config) : Int) -
      outputsSize (current.priced.building.countedOutputs current.priced.config
        current.priced.outs)) +
    ((estInputsSize (current.checkpoint.countedInputs config) : Int) -
      estInputsSize (current.priced.building.countedInputs current.priced.config)) +
    ((current.checkpoint.countedWitnesses host config : Int) -
      current.priced.building.countedWitnesses host current.priced.config)

variable {current config}

theorem minerFee_eq {fee : Nat} (paid : current.checkpoint.checkpointTxMinerFees = .ok fee) :
    fee = current.minerFee := by
  simp only [Checkpoint.checkpointTxMinerFees, Outcome.bind_eq_ok] at paid
  obtain ⟨tx, first, amountIn, summed, left⟩ := paid
  have amountInEq := Outcome.checkedSum_eq_ok summed
  have leftEq := Outcome.foldlM_checkedSub_eq_ok left
  rw [minerFee, Checkpoint.mainTx_of_firstTx first, BitcoinTx.amountIn, BitcoinTx.amountOut]
  omega

/-- A new estimate is the size that was charged for with what is counted now in
addition. -/
theorem estVsize_eq (measures : host.MeasuresWeight) {vsize : Nat}
    (estimated : current.checkpoint.estVsize host config (List.replicate 32 0) = .ok vsize) :
    (vsize : Int) = current.priced.vsize + current.recounted config := by
  obtain ⟨again, addedAgain, vsizeEq⟩ := Checkpoint.estVsize_measured measures estimated
  obtain ⟨outs, added, chargedEq⟩ :=
    Checkpoint.estVsize_measured measures current.priced.vsize_eq
  obtain rfl := Except.ok.inj (added.symm.trans current.priced.outs_eq)
  have countedEq : current.countedOutputs config =
      current.checkpoint.countedOutputs config again := by
    rw [countedOutputs, addedAgain]
    rfl
  rw [recounted, countedEq, vsizeEq, chargedEq]
  omega

end PricedCheckpoint

section CountedTwice

theorem TxOut.size_pos (output : TxOut) : 0 < output.size := by
  unfold TxOut.size
  omega

/-- More outputs in front take at least their own size. -/
theorem outputsSize_append_le (first rest : List TxOut) :
    (first.map TxOut.size).sum + outputsSize rest ≤ outputsSize (first ++ rest) := by
  have countLe : varIntLength rest.length ≤ varIntLength (first ++ rest).length := by
    apply varIntLength_mono
    rw [List.length_append]
    exact Nat.le_add_left _ _
  rw [outputsSize, outputsSize, List.map_append, List.sum_append]
  omega

namespace PricedCheckpoint

variable {host : Host} {current : PricedCheckpoint host} {config : CheckpointConfig}

/-- No limit cuts anything off, neither then nor now, and nothing was signed when
the checkpoint was charged for. -/
structure CountsAll (current : PricedCheckpoint host) (config : CheckpointConfig) : Prop where
  charged : Checkpoint.EstimatesAll current.priced.config current.priced.building.mainTx
  notSigned : ∀ input ∈ current.priced.building.mainTx.input, input.signatures.signed = false
  inputs : current.checkpoint.mainTx.input.length ≤ Checkpoint.asUsize config.maxInputs
  outputs : current.checkpoint.mainTx.output.length + 2 ≤ Checkpoint.asUsize config.maxOutputs

/-- The additional outputs are counted a second time, and the witnesses on top of
their estimates. -/
theorem CountsAll.le_recounted (counts : current.CountsAll config) (measures : host.MeasuresWeight)
    {again : List TxOut} (added : current.checkpoint.additionalOutputs host config
      (List.replicate 32 0) = .ok again) :
    (((again.map TxOut.size).sum + current.checkpoint.countedWitnesses host config : Nat) : Int) ≤
      current.recounted config := by
  have chargedEq := current.priced.vsize_eq_measured measures counts.charged
  obtain ⟨outs, outsAdded, measuredEq⟩ :=
    Checkpoint.estVsize_measured measures current.priced.vsize_eq
  obtain rfl := Except.ok.inj (outsAdded.symm.trans current.priced.outs_eq)
  obtain ⟨reserveScript, commitmentScript, -, againEq⟩ :=
    Checkpoint.additionalOutputs_eq_ok added
  have allInputs : current.checkpoint.countedInputs config = current.checkpoint.mainTx.input :=
    List.take_of_length_le counts.inputs
  have allOutputs : current.countedOutputs config =
      again ++ current.checkpoint.mainTx.output := by
    rw [countedOutputs, added]
    apply List.take_of_length_le
    rw [List.length_append, againEq, Nat.add_comm]
    exact counts.outputs
  have larger := outputsSize_append_le again current.checkpoint.mainTx.output
  have noWitnesses : current.priced.building.countedWitnesses host current.priced.config = 0 :=
    Checkpoint.countedWitnesses_of_not_signed counts.notSigned
  rw [recounted, allInputs, allOutputs, noWitnesses]
  omega

theorem CountsAll.recounted_pos (counts : current.CountsAll config)
    (measures : host.MeasuresWeight) {vsize : Nat}
    (estimated : current.checkpoint.estVsize host config (List.replicate 32 0) = .ok vsize) :
    0 < current.recounted config := by
  obtain ⟨again, added, -⟩ := Checkpoint.estVsize_measured measures estimated
  obtain ⟨reserveScript, commitmentScript, -, againEq⟩ :=
    Checkpoint.additionalOutputs_eq_ok added
  have atLeast := counts.le_recounted measures added
  have reserveSize := TxOut.size_pos ⟨0, reserveScript⟩
  rw [againEq, List.map_cons, List.sum_cons] at atLeast
  omega

end PricedCheckpoint

end CountedTwice

section Chain

variable {host : Host} {config : CheckpointConfig} {charged : List (PricedCheckpoint host)}

theorem sum_minerFee {fees : List Nat}
    (paid : List.Forall₂ (fun current fee =>
      current.checkpoint.checkpointTxMinerFees = .ok fee) charged fees) :
    fees.sum = (charged.map PricedCheckpoint.minerFee).sum := by
  induction paid with
  | nil => rfl
  | cons head _ ih =>
      rw [List.map_cons, List.sum_cons, List.sum_cons, PricedCheckpoint.minerFee_eq head, ih]

theorem sum_estVsize (measures : host.MeasuresWeight) {sizes : List Nat}
    (estimated : List.Forall₂ (fun current vsize =>
      current.checkpoint.estVsize host config (List.replicate 32 0) = .ok vsize) charged sizes) :
    (sizes.sum : Int) = (charged.map fun current => current.priced.vsize).sum +
      (charged.map (PricedCheckpoint.recounted · config)).sum := by
  induction estimated with
  | nil => rfl
  | cons head _ ih =>
      have headEq := PricedCheckpoint.estVsize_eq measures head
      simp only [List.map_cons, List.sum_cons, Nat.cast_add]
      omega

theorem sum_minerFee_eq {feeRate : Nat}
    (paid : ∀ current ∈ charged, feeRate * current.priced.vsize ≤ current.minerFee) :
    (charged.map PricedCheckpoint.minerFee).sum =
      feeRate * (charged.map fun current => current.priced.vsize).sum +
        (charged.map (PricedCheckpoint.surplus · feeRate)).sum := by
  induction charged with
  | nil => rfl
  | cons current charged ih =>
      rw [List.forall_mem_cons] at paid
      have surplusEq : current.minerFee =
          feeRate * current.priced.vsize + current.surplus feeRate :=
        (Nat.add_sub_cancel' paid.1).symm
      simp only [List.map_cons, List.sum_cons, Nat.mul_add]
      rw [ih paid.2, surplusEq]
      omega

end Chain

namespace QueueStore

variable {host : Host} {queue : QueueStore} {config : CheckpointConfig}
  {charged : List (PricedCheckpoint host)} {fees vbytes : Nat}

theorem unconfirmedFeesPaid_eq
    (unconfirmed : queue.unconfirmed = .ok (charged.map PricedCheckpoint.checkpoint))
    (paid : queue.unconfirmedFeesPaid = .ok fees) :
    fees = (charged.map PricedCheckpoint.minerFee).sum ∧ fees < 2 ^ 64 := by
  rw [unconfirmedFeesPaid, unconfirmed, Outcome.ok_bind] at paid
  obtain ⟨each, eachPaid, feesEq, feesLt⟩ :=
    Outcome.foldlM_checkedAdd_eq_ok (by decide) paid
  rw [List.forall₂_map_left_iff] at eachPaid
  rw [feesEq, Nat.zero_add, sum_minerFee eachPaid] at *
  exact ⟨rfl, feesLt⟩

theorem unconfirmedVbytes_eq (measures : host.MeasuresWeight)
    (unconfirmed : queue.unconfirmed = .ok (charged.map PricedCheckpoint.checkpoint))
    (estimated : queue.unconfirmedVbytes host config = .ok vbytes) :
    (vbytes : Int) = (charged.map fun current => current.priced.vsize).sum +
      (charged.map (PricedCheckpoint.recounted · config)).sum := by
  rw [unconfirmedVbytes, unconfirmed, Outcome.ok_bind] at estimated
  obtain ⟨sizes, eachEstimated, vbytesEq, -⟩ :=
    Outcome.foldlM_checkedAdd_eq_ok (by decide) estimated
  rw [List.forall₂_map_left_iff] at eachEstimated
  rw [vbytesEq, Nat.zero_add]
  exact sum_estVsize measures eachEstimated

theorem exists_estVsize
    (unconfirmed : queue.unconfirmed = .ok (charged.map PricedCheckpoint.checkpoint))
    (estimated : queue.unconfirmedVbytes host config = .ok vbytes)
    {current : PricedCheckpoint host} (member : current ∈ charged) :
    ∃ vsize, current.checkpoint.estVsize host config (List.replicate 32 0) = .ok vsize := by
  rw [unconfirmedVbytes, unconfirmed, Outcome.ok_bind] at estimated
  obtain ⟨sizes, eachEstimated, -, -⟩ := Outcome.foldlM_checkedAdd_eq_ok (by decide) estimated
  have mapped := Outcome.mapM_eq_ok.mpr (List.forall₂_map_left_iff.mp eachEstimated)
  exact Outcome.exists_mapM_eq_ok.mp ⟨sizes, mapped⟩ current member

/-- The unconfirmed checkpoints are complete. -/
theorem unconfirmed_complete {checkpoints : List Checkpoint}
    (unconfirmed : queue.unconfirmed = .ok checkpoints) {checkpoint : Checkpoint}
    (member : checkpoint ∈ checkpoints) :
    ∃ index, queue.window.item index = some checkpoint ∧ checkpoint.status = .complete := by
  simp only [QueueStore.unconfirmed, Outcome.bind_eq_ok] at unconfirmed
  obtain ⟨first, -, read⟩ := unconfirmed
  cases first with
  | none =>
      obtain rfl := Outcome.pure_eq_ok.mp read
      cases member
  | some first =>
      simp only [Outcome.bind_eq_ok, Outcome.pure_eq_ok] at read
      obtain ⟨found, readFrom, rfl⟩ := read
      obtain ⟨entry, entryMember, rfl⟩ := List.mem_map.mp member
      exact ⟨entry.1, completeFrom_complete readFrom entry entryMember⟩

/-- The adjustment is the size of the chain at the fee rate less the fees that it
paid, and a product out of range is not paid for. -/
theorem feeAdjustment_eq_ok_zero {feeRate : Nat} :
    queue.feeAdjustment host feeRate config = .ok 0 ↔
      ∃ fees, queue.unconfirmedFeesPaid = .ok fees ∧
        ∃ vbytes, queue.unconfirmedVbytes host config = .ok vbytes ∧
          vbytes * feeRate < 2 ^ 64 ∧ vbytes * feeRate ≤ fees := by
  simp only [feeAdjustment, Outcome.bind_eq_ok, Outcome.checkedMul_eq_ok, Outcome.pure_eq_ok]
  constructor
  · rintro ⟨fees, paid, vbytes, estimated, _, ⟨inRange, rfl⟩, zero⟩
    exact ⟨fees, paid, vbytes, estimated, inRange, Nat.le_of_sub_eq_zero zero⟩
  · rintro ⟨fees, paid, vbytes, estimated, inRange, covered⟩
    exact ⟨fees, paid, vbytes, estimated, _, ⟨inRange, rfl⟩, Nat.sub_eq_zero_of_le covered⟩

/-- A chain whose checkpoints paid a fee rate for the sizes that they were charged
for is not charged again at that rate exactly when what is counted in addition is
covered by what they paid beyond it. -/
theorem feeAdjustment_eq_zero_iff (measures : host.MeasuresWeight) {feeRate : Nat}
    (unconfirmed : queue.unconfirmed = .ok (charged.map PricedCheckpoint.checkpoint))
    (paid : ∀ current ∈ charged, feeRate * current.priced.vsize ≤ current.minerFee) :
    queue.feeAdjustment host feeRate config = .ok 0 ↔
      (∃ fees, queue.unconfirmedFeesPaid = .ok fees) ∧
        (∃ vbytes, queue.unconfirmedVbytes host config = .ok vbytes) ∧
          (feeRate : Int) * (charged.map (PricedCheckpoint.recounted · config)).sum ≤
            (charged.map (PricedCheckpoint.surplus · feeRate)).sum := by
  have total := sum_minerFee_eq paid
  have covers {fees vbytes : Nat} (feesPaid : queue.unconfirmedFeesPaid = .ok fees)
      (estimated : queue.unconfirmedVbytes host config = .ok vbytes) :
      vbytes * feeRate ≤ fees ↔
        (feeRate : Int) * (charged.map (PricedCheckpoint.recounted · config)).sum ≤
          (charged.map (PricedCheckpoint.surplus · feeRate)).sum := by
    rw [← Int.ofNat_le, Nat.cast_mul, unconfirmedVbytes_eq measures unconfirmed estimated,
      (unconfirmedFeesPaid_eq unconfirmed feesPaid).1, total, Nat.cast_add, Nat.cast_mul, mul_comm,
      mul_add]
    exact add_le_add_iff_left _
  rw [feeAdjustment_eq_ok_zero]
  constructor
  · rintro ⟨fees, feesPaid, vbytes, estimated, -, covered⟩
    exact ⟨⟨fees, feesPaid⟩, ⟨vbytes, estimated⟩, (covers feesPaid estimated).mp covered⟩
  · rintro ⟨⟨fees, feesPaid⟩, ⟨vbytes, estimated⟩, covered⟩
    have covered := (covers feesPaid estimated).mpr covered
    have feesLt := (unconfirmedFeesPaid_eq unconfirmed feesPaid).2
    exact ⟨fees, feesPaid, vbytes, estimated, covered.trans_lt feesLt, covered⟩

/-- A chain whose checkpoints paid exactly for the sizes that they were charged
for is always charged again. -/
theorem feeAdjustment_ne_zero (measures : host.MeasuresWeight) {feeRate : Nat}
    (unconfirmed : queue.unconfirmed = .ok (charged.map PricedCheckpoint.checkpoint))
    (exact : ∀ current ∈ charged, current.minerFee = feeRate * current.priced.vsize)
    (counts : ∀ current ∈ charged, current.CountsAll config)
    (positive : 0 < feeRate) (nonempty : charged ≠ []) :
    queue.feeAdjustment host feeRate config ≠ .ok 0 := by
  intro zero
  obtain ⟨-, ⟨vbytes, estimated⟩, covered⟩ := (feeAdjustment_eq_zero_iff measures unconfirmed
    fun current member => (exact current member).ge).mp zero
  have noSurplus : (charged.map (PricedCheckpoint.surplus · feeRate)).sum = 0 := by
    apply List.sum_eq_zero
    intro surplus member
    obtain ⟨current, currentMember, rfl⟩ := List.mem_map.mp member
    exact Nat.sub_eq_zero_of_le (exact current currentMember).le
  have eachPositive : ∀ size ∈ charged.map (PricedCheckpoint.recounted · config), 0 < size := by
    intro size member
    obtain ⟨current, currentMember, rfl⟩ := List.mem_map.mp member
    obtain ⟨vsize, currentEstimated⟩ := exists_estVsize unconfirmed estimated currentMember
    exact (counts current currentMember).recounted_pos measures currentEstimated
  have recountedPos : 0 < (charged.map (PricedCheckpoint.recounted · config)).sum := by
    apply List.sum_pos _ eachPositive
    rw [ne_eq, List.map_eq_nil_iff]
    exact nonempty
  rw [noSurplus, Nat.cast_zero] at covered
  have product := Int.mul_pos (Int.natCast_pos.mpr positive) recountedPos
  omega

end QueueStore

namespace Contract

/-- Every unconfirmed checkpoint of a run has been charged for. -/
theorem run_unconfirmed_priced (host : Host) (info : MessageInfo) (msg : InstantiateMsg)
    (calls : List Call) {checkpoints : List Checkpoint}
    (unconfirmed : ((machine host).run (instantiate host info msg) calls).queue.unconfirmed =
      .ok checkpoints) :
    ∃ charged : List (PricedCheckpoint host),
      charged.map PricedCheckpoint.checkpoint = checkpoints := by
  have eachPriced : ((machine host).run (instantiate host info msg) calls).queue.Each
      (PricedUnder host fun _ _ => True) :=
    run_pricedUnder (fun _ _ _ _ _ _ => trivial)
      ((machine host).permitted_all (instantiate host info msg) calls).onSuccess
  have ranged : ∀ checkpoint ∈ checkpoints,
      checkpoint ∈ Set.range (PricedCheckpoint.checkpoint : PricedCheckpoint host → Checkpoint) := by
    intro checkpoint member
    obtain ⟨index, found, isComplete⟩ := QueueStore.unconfirmed_complete unconfirmed member
    obtain ⟨priced, -⟩ := eachPriced _ _ found (by rw [isComplete]; exact nofun)
    exact ⟨⟨checkpoint, priced⟩, rfl⟩
  rwa [← Set.mem_range, Set.range_list_map]

end Contract

namespace Sample

/-- The state once the first checkpoint is signed. -/
def pricedStore : Store := (Contract.machine sizedHost).run initial (setupCalls ++ [signFirst])

/-- The first checkpoint before the block that froze it. -/
def pricedBuilding : Checkpoint :=
  checkpointAt ((Contract.machine sizedHost).run initial (setupCalls.take 6)) 0

def pricedOuts : List TxOut :=
  (pricedBuilding.additionalOutputs sizedHost CheckpointConfig.default [2]).toOption.getD []

def pricedTx : BitcoinTx × Nat :=
  (Checkpoint.freezeTx sizedHost CheckpointConfig.default 13145 pricedOuts
    pricedBuilding.mainTx).toOption.getD (BitcoinTx.default, 0)

/-- The first checkpoint, which was charged for 239 bytes at a fee rate of 55. -/
def firstPriced : PricedCheckpoint sizedHost where
  checkpoint := checkpointAt pricedStore 0
  priced := {
    building := pricedBuilding
    config := CheckpointConfig.default
    commitment := [2]
    vsize := 239
    vsize_eq := by decide +kernel
    cpFees := 13145
    baseFee_le := by decide +kernel
    outs := pricedOuts
    outs_eq := by decide +kernel
    frozenTx := pricedTx.1
    reserveValue := pricedTx.2
    frozen_eq := by decide +kernel
    unsigned_eq := by decide +kernel
    feeRate_eq := by decide +kernel }

end Sample

namespace QueueStore

theorem feeAdjustment_eq_zero_iff_covered :
    Sample.pricedStore.queue.feeAdjustment Sample.sizedHost 30 CheckpointConfig.default = .ok 0 :=
  (feeAdjustment_eq_zero_iff (fun _ => rfl)
    (by decide +kernel : Sample.pricedStore.queue.unconfirmed =
      .ok ([Sample.firstPriced].map PricedCheckpoint.checkpoint))
    (List.forall_mem_singleton.mpr (by decide +kernel))).mpr
    ⟨⟨13145, by decide +kernel⟩, ⟨362, by decide +kernel⟩, by decide +kernel⟩

/-- The first checkpoint paid exactly for the size that it was charged for, and
another fee is charged for it at the same rate. -/
theorem feeAdjustment_charged_twice :
    (Sample.pricedStore.queue.unconfirmed = .ok [Sample.firstPriced.checkpoint] ∧
        Sample.firstPriced.minerFee = 55 * Sample.firstPriced.priced.vsize) ∧
      Sample.pricedStore.queue.feeAdjustment Sample.sizedHost 55 CheckpointConfig.default =
        .ok 6765 := by
  decide +kernel

end QueueStore

end CwBitcoin
