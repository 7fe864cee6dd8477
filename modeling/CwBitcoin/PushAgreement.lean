import CwBitcoin.Unconfirmed

/-!
# A checkpoint that is pushed can be paid for

Before a checkpoint is pushed, the fee and the reserve of the one under
construction are checked.  After the push and the pruning, the fee is computed
again from a longer queue and the transaction is cut to its limits.  Both
computations see the same unconfirmed checkpoints and the same amounts.
-/

namespace CwBitcoin

namespace Checkpoint

variable {host : Host} {config : CheckpointConfig} {checkpoint : Checkpoint} {commitment : Bytes}

/-- The limits count every input and output that they keep when they are taken
as indexes. -/
structure CountsKept (config : CheckpointConfig) (tx : BitcoinTx) : Prop where
  inputs : min config.maxInputs tx.input.length ≤ asUsize config.maxInputs
  outputs : min (config.maxOutputs - 2) tx.output.length ≤ asUsize config.maxOutputs

/-- Limits of at most 32 bits count what they keep. -/
theorem countsKept_of_lt (tx : BitcoinTx) (inputsLt : config.maxInputs < 2 ^ 32)
    (outputsLt : config.maxOutputs < 2 ^ 32) : CountsKept config tx := by
  constructor
  · rw [asUsize, Nat.mod_eq_of_lt inputsLt]
    omega
  · rw [asUsize, Nat.mod_eq_of_lt outputsLt]
    omega

theorem sum_take_le {kept counted : Nat} (xs : List Nat) (enough : min kept xs.length ≤ counted) :
    (xs.take kept).sum ≤ (xs.take counted).sum := by
  have shorter : xs.take kept = (xs.take counted).take kept := by
    rw [List.take_take, List.take_eq_take_iff]
    omega
  rw [shorter]
  conv => rhs; rw [← List.take_append_drop kept (xs.take counted), List.sum_append]
  exact Nat.le_add_right _ _

theorem calcTotalInputAndOutput_eq_ok {inAmount outAmount : Nat}
    (first : checkpoint.firstTx = .ok checkpoint.mainTx)
    (totals : checkpoint.calcTotalInputAndOutput config = .ok (inAmount, outAmount)) :
    inAmount = ((checkpoint.mainTx.input.take (asUsize config.maxInputs)).map Input.amount).sum ∧
      outAmount =
        ((checkpoint.mainTx.output.take (asUsize config.maxOutputs)).map TxOut.value).sum ∧
      inAmount < 2 ^ 64 := by
  simp only [firstTx, Outcome.bind_eq_ok, Outcome.getOr_abort_eq_ok] at first
  obtain ⟨batch, head, headTx⟩ := first
  simp only [calcTotalInputAndOutput, head, headTx, Outcome.getOr, Outcome.ok_bind,
    Outcome.bind_eq_ok, Outcome.pure_eq_ok, Prod.mk.injEq] at totals
  obtain ⟨summedIn, inOk, summedOut, outOk, rfl, rfl⟩ := totals
  refine ⟨?_, ?_, Outcome.checkedSum_lt (by decide) inOk⟩
  · rw [Outcome.checkedSum_eq_ok inOk, zero_add]
  · rw [Outcome.checkedSum_eq_ok outOk, zero_add]

section Additional

variable {outs : List TxOut}
  (added : checkpoint.additionalOutputs host config commitment = .ok outs) (output : List TxOut)

include added

/-- The additional outputs take two places and no value. -/
theorem sum_take_additional : (((outs ++ output).take config.maxOutputs).map TxOut.value).sum =
    ((output.take (config.maxOutputs - 2)).map TxOut.value).sum := by
  obtain ⟨reserveScript, commitmentScript, -, rfl⟩ := additionalOutputs_eq_ok added
  rcases config.maxOutputs with _ | _ | limit <;> simp

theorem take_additional_ne_nil (positive : 1 ≤ config.maxOutputs) :
    (outs ++ output).take config.maxOutputs ≠ [] := by
  obtain ⟨reserveScript, commitmentScript, -, rfl⟩ := additionalOutputs_eq_ok added
  cases limit : config.maxOutputs with
  | zero => omega
  | succ limit => simp

end Additional

/-- What a fee estimate has read from the checkpoint. -/
theorem estVsize_eq_ok {vsize : Nat}
    (estimated : checkpoint.estVsize host config commitment = .ok vsize) :
    checkpoint.firstTx = .ok checkpoint.mainTx ∧
      (∀ input ∈ checkpoint.mainTx.input, ∃ txin, input.toTxin host = .ok txin) ∧
      ∃ outs, checkpoint.additionalOutputs host config commitment = .ok outs := by
  simp only [estVsize, BitcoinTx.toBitcoinTx, Outcome.bind_eq_ok] at estimated
  obtain ⟨tx, first, bitcoinTx, ⟨inputs, converted, -⟩, outs, added, -⟩ := estimated
  rw [mainTx_of_firstTx first]
  exact ⟨first, Outcome.exists_mapM_eq_ok.mp ⟨inputs, converted⟩, outs, added⟩

/-- The message of an input does not show in the transaction. -/
theorem toTxin_signatureMessage {bitcoinTx : Transaction} {index : Nat} {input : Input} :
    (BitcoinTx.signatureMessage host bitcoinTx index input).toTxin host = input.toTxin host := rfl

/-- A transaction cut to the limits, with a value for its first output. -/
def keptTx (config : CheckpointConfig) (outs : List TxOut) (tx : BitcoinTx) (reserveValue : Nat) :
    BitcoinTx :=
  { tx with
    input := tx.input.take config.maxInputs
    output := ((outs ++ tx.output).take config.maxOutputs).modifyHead fun reserveOut =>
      { reserveOut with value := reserveValue } }

/-- A transaction whose kept inputs cover its kept outputs and the fee is
frozen. -/
theorem exists_freezeTx {cpFees : Nat} {outs : List TxOut} {tx : BitcoinTx}
    (converts : ∀ input ∈ tx.input, ∃ txin, input.toTxin host = .ok txin)
    (nonempty : (outs ++ tx.output).take config.maxOutputs ≠ [])
    (inRange : ((tx.input.take config.maxInputs).map Input.amount).sum < 2 ^ 64)
    (covered : (((outs ++ tx.output).take config.maxOutputs).map TxOut.value).sum + cpFees ≤
      ((tx.input.take config.maxInputs).map Input.amount).sum) :
    ∃ frozen reserveValue txid, freezeTx host config cpFees outs tx = .ok (frozen, reserveValue) ∧
      frozen.txid host = .ok txid := by
  have keptConverts : ∀ input ∈ tx.input.take config.maxInputs,
      ∃ txin, input.toTxin host = .ok txin :=
    fun input member => converts input (List.mem_of_mem_take member)
  have inOk : (Outcome.checkedSum 64 0 ((tx.input.take config.maxInputs).map Input.amount) :
      ContractResult Nat) = .ok ((tx.input.take config.maxInputs).map Input.amount).sum :=
    Outcome.checkedSum_of_lt inRange
  have outOk : (Outcome.checkedSum 64 0
      (((outs ++ tx.output).take config.maxOutputs).map TxOut.value) : ContractResult Nat) =
        .ok (((outs ++ tx.output).take config.maxOutputs).map TxOut.value).sum :=
    Outcome.checkedSum_of_lt (by omega)
  obtain ⟨reserveValue, reserveEq⟩ : ∃ reserveValue, reserveValue =
    ((tx.input.take config.maxInputs).map Input.amount).sum -
      ((((outs ++ tx.output).take config.maxOutputs).map TxOut.value).sum + cpFees) := ⟨_, rfl⟩
  obtain ⟨bitcoinTx, converted⟩ :
      ∃ bitcoinTx, (keptTx config outs tx reserveValue).toBitcoinTx host = .ok bitcoinTx :=
    BitcoinTx.exists_toBitcoinTx keptConverts
  have frozenConverts : ∀ input ∈ (tx.input.take config.maxInputs).mapIdx
      (BitcoinTx.signatureMessage host bitcoinTx), ∃ txin, input.toTxin host = .ok txin := by
    intro input member
    obtain ⟨index, inBounds, rfl⟩ := List.mem_mapIdx.mp member
    rw [toTxin_signatureMessage]
    exact keptConverts _ (List.getElem_mem _)
  obtain ⟨frozenBitcoinTx, frozenConverted⟩ : ∃ frozenBitcoinTx,
      BitcoinTx.toBitcoinTx host { keptTx config outs tx reserveValue with
        input := (tx.input.take config.maxInputs).mapIdx
          (BitcoinTx.signatureMessage host bitcoinTx) } = .ok frozenBitcoinTx :=
    BitcoinTx.exists_toBitcoinTx frozenConverts
  refine ⟨{ keptTx config outs tx reserveValue with
    input := (tx.input.take config.maxInputs).mapIdx
      (BitcoinTx.signatureMessage host bitcoinTx) }, reserveValue, frozenBitcoinTx.txid host, ?_, ?_⟩
  · simp only [freezeTx, inOk, outOk, Outcome.ok_bind, Outcome.bind_eq_ok,
      Outcome.checkedAdd_eq_ok, Outcome.require_eq_ok, Outcome.assert_eq_ok]
    refine ⟨_, ⟨by omega, rfl⟩, (), covered, (), nonempty, bitcoinTx, ?_, ?_⟩
    · rw [← reserveEq]
      exact converted
    · rw [← reserveEq]
      rfl
  · rw [BitcoinTx.txid, frozenConverted]
    rfl

theorem exists_advance {cpFees : Nat} {outs : List TxOut}
    (first : checkpoint.firstTx = .ok checkpoint.mainTx)
    (added : checkpoint.additionalOutputs host config commitment = .ok outs)
    (converts : ∀ input ∈ checkpoint.mainTx.input, ∃ txin, input.toTxin host = .ok txin)
    (nonempty : (outs ++ checkpoint.mainTx.output).take config.maxOutputs ≠ [])
    (inRange : ((checkpoint.mainTx.input.take config.maxInputs).map Input.amount).sum < 2 ^ 64)
    (covered : (((outs ++ checkpoint.mainTx.output).take config.maxOutputs).map TxOut.value).sum +
      cpFees ≤ ((checkpoint.mainTx.input.take config.maxInputs).map Input.amount).sum) :
    ∃ frozen advanced, checkpoint.advance host commitment cpFees config =
      .ok (frozen, advanced) := by
  obtain ⟨frozen, reserveValue, txid, frozenOk, identified⟩ :=
    exists_freezeTx converts nonempty inRange covered
  simp only [advance, added, first, frozenOk, identified, Outcome.ok_bind]
  exact ⟨_, _, rfl⟩

end Checkpoint

namespace QueueStore

variable {queue after : QueueStore} {building : Checkpoint}

/-- Whether a checkpoint is returned depends on the window alone. -/
theorem get_eq (aligned : queue.Aligned) (index : Nat) : queue.get index =
    Outcome.getOr (Outcome.fail (.app "Index out of bounds")) (queue.window.item index) := by
  cases found : queue.window.item index with
  | some checkpoint => exact get_eq_ok.mpr ⟨aligned, found⟩
  | none =>
      have outside : queue.buildingIndex < index ∨
          index < queue.buildingIndex + 1 - queue.checkpoints.length := by
        by_contra inside
        obtain ⟨checkpoint, present⟩ := Window.exists_item aligned.window
          (by simp only [Window.first, QueueStore.window]; omega : queue.window.first ≤ index)
          (by simp only [QueueStore.window]; omega)
        simp [found] at present
      have addOk : (Outcome.checkedAdd 32 queue.buildingIndex 1 : ContractResult Nat) =
          .ok (queue.buildingIndex + 1) := Outcome.checkedAdd_eq_ok.mpr ⟨aligned.fits, rfl⟩
      have subOk : (Outcome.checkedSub (queue.buildingIndex + 1) queue.checkpoints.length :
          ContractResult Nat) = .ok (queue.buildingIndex + 1 - queue.checkpoints.length) :=
        Outcome.checkedSub_eq_ok.mpr ⟨aligned.window, rfl⟩
      simp only [get, getDequeIndex, addOk, subOk, Outcome.ok_bind, if_pos outside]
      rfl

/-- Reading stops at the first checkpoint that is not complete. -/
theorem completeFrom_append {before rest : List Nat} {index : Nat} {checkpoint : Checkpoint}
    (got : queue.get index = .ok checkpoint) (incomplete : checkpoint.status ≠ .complete) :
    queue.completeFrom (before ++ index :: rest) = queue.completeFrom (before ++ [index]) := by
  induction before with
  | nil => simp [completeFrom, got, incomplete, bind, Except.bind]
  | cons first before ih => simp only [List.cons_append, completeFrom, ih]

theorem completeFrom_incomplete {index : Nat} {checkpoint : Checkpoint}
    (got : queue.get index = .ok checkpoint) (incomplete : checkpoint.status ≠ .complete) :
    queue.completeFrom [index] = .ok [] := by
  simp [completeFrom, got, incomplete, bind, Except.bind, pure, Except.pure]

theorem completeFrom_congr {indexes : List Nat}
    (same : ∀ index ∈ indexes, after.get index = queue.get index) :
    after.completeFrom indexes = queue.completeFrom indexes := by
  induction indexes with
  | nil => rfl
  | cons index indexes ih =>
      rw [completeFrom, completeFrom, same index List.mem_cons_self,
        ih fun other member => same other (List.mem_cons_of_mem _ member)]

/-- The first index that may be unconfirmed. -/
def firstOpen (queue : QueueStore) : Nat :=
  match queue.confirmedIndex with
  | none => queue.window.first
  | some confirmedIndex => confirmedIndex + 1

section NoSigning

variable (aligned : queue.Aligned) (noSigning : queue.signing = .ok none)
  (found : queue.window.item queue.buildingIndex = some building)
  (confirmedLe : ∀ confirmedIndex ∈ queue.confirmedIndex,
    confirmedIndex ≤ queue.buildingIndex - 1)

include aligned noSigning found confirmedLe

theorem numUnconfirmed_eq :
    queue.numUnconfirmed = .ok (queue.buildingIndex - queue.firstOpen) := by
  have enough : queue.checkpoints.length ≤ queue.buildingIndex + 1 := aligned.window
  have nonempty : 0 < queue.checkpoints.length := List.length_pos_of_mem (Window.mem_of_item found)
  have firstEq : queue.window.first = queue.buildingIndex + 1 - queue.checkpoints.length := rfl
  simp only [numUnconfirmed, noSigning, Outcome.ok_bind, Option.isSome_none, Bool.false_eq_true,
    if_false, Nat.add_zero]
  by_cases isZero : queue.buildingIndex < 1
  · rw [if_pos isZero, Outcome.pure_eq_ok]
    omega
  · rw [if_neg isZero]
    cases confirmed : queue.confirmedIndex with
    | none =>
        simp only [Outcome.bind_eq_ok, Outcome.checkedSub_eq_ok, firstOpen, confirmed]
        exact ⟨_, ⟨nonempty, rfl⟩, by omega, by omega⟩
    | some confirmedIndex =>
        have upper := confirmedLe confirmedIndex confirmed
        simp only [Outcome.checkedSub_eq_ok, firstOpen, confirmed]
        omega

theorem firstUnconfirmedIndex_eq : queue.firstUnconfirmedIndex =
    .ok (if queue.firstOpen < queue.buildingIndex then some queue.firstOpen else none) := by
  rw [firstUnconfirmedIndex, numUnconfirmed_eq aligned noSigning found confirmedLe,
    Outcome.ok_bind]
  by_cases before : queue.firstOpen < queue.buildingIndex
  · rw [if_neg (by omega), if_pos before, noSigning, Outcome.ok_bind]
    simp only [Option.isSome_none, Bool.false_eq_true, if_false, Outcome.bind_eq_ok,
      Outcome.checkedSub_eq_ok, Outcome.pure_eq_ok, Option.some.injEq]
    exact ⟨_, ⟨by omega, rfl⟩, _, ⟨Nat.zero_le _, rfl⟩, by omega⟩
  · rw [if_pos (by omega), if_neg before]
    rfl

/-- While no checkpoint waits for signatures, the unconfirmed ones are read from
the first open index on. -/
theorem unconfirmed_eq (incomplete : building.status ≠ .complete) :
    queue.unconfirmed = Except.map (List.map Prod.snd) (queue.completeFrom
      (List.range' queue.firstOpen (queue.buildingIndex + 1 - queue.firstOpen))) := by
  have got : queue.get queue.buildingIndex = .ok building := get_eq_ok.mpr ⟨aligned, found⟩
  rw [unconfirmed, firstUnconfirmedIndex_eq aligned noSigning found confirmedLe, Outcome.ok_bind]
  by_cases before : queue.firstOpen < queue.buildingIndex
  · rw [if_pos before]
    rfl
  · -- Reading from the checkpoint under construction, or behind it, finds nothing.
    have readNothing : queue.completeFrom (List.range' queue.firstOpen
        (queue.buildingIndex + 1 - queue.firstOpen)) = .ok [] := by
      rcases Nat.lt_or_eq_of_le (Nat.le_of_not_lt before) with past | atBuilding
      · rw [Nat.sub_eq_zero_of_le past]
        rfl
      · rw [← atBuilding, Nat.add_sub_cancel_left]
        exact completeFrom_incomplete got incomplete
    rw [if_neg before, readNothing]
    rfl

end NoSigning

/-- The queue with one more checkpoint at its end and without some at its
front. -/
structure Extended (queue after : QueueStore) where
  newest : Checkpoint
  count : Nat
  count_lt : count < queue.checkpoints.length
  fits : queue.buildingIndex + 2 < 2 ^ 32
  newest_status : newest.status = .building
  after_eq : after = { queue with
    head := queue.head + count
    buildingIndex := queue.buildingIndex + 1
    checkpoints := (queue.checkpoints ++ [newest]).drop count }

/-- Every checkpoint that is not confirmed is still in the queue. -/
def KeepsUnconfirmed (queue after : QueueStore) : Prop :=
  ∀ index ≤ queue.buildingIndex, queue.AboveConfirmed index →
    after.window.item index = queue.window.item index

instance (queue after : QueueStore) : Decidable (KeepsUnconfirmed queue after) :=
  inferInstanceAs (Decidable (∀ index ≤ queue.buildingIndex, queue.AboveConfirmed index →
    after.window.item index = queue.window.item index))

namespace Extended

variable (extended : Extended queue after)

include extended in
theorem buildingIndex_after : after.buildingIndex = queue.buildingIndex + 1 := by
  rw [extended.after_eq]

include extended in
theorem confirmedIndex_after : after.confirmedIndex = queue.confirmedIndex := by
  rw [extended.after_eq]

theorem window_after :
    after.window = (queue.window.push extended.newest).drop extended.count :=
  congrArg QueueStore.window extended.after_eq

section Aligned

variable (aligned : queue.Aligned)

include aligned

theorem item_after (index : Nat) : after.window.item index =
    if index < queue.window.first + extended.count then none
    else if index = queue.buildingIndex + 1 then some extended.newest
    else queue.window.item index := by
  have enough : extended.count ≤ (queue.window.push extended.newest).items.length := by
    have countLt := extended.count_lt
    simp only [Window.push, QueueStore.window, List.length_append, List.length_singleton]
    omega
  rw [extended.window_after, Window.item_drop aligned.window.push enough,
    Window.first_push aligned.window, Window.item_push aligned.window]
  rfl

theorem first_after : after.window.first = queue.window.first + extended.count := by
  have enough : extended.count ≤ (queue.window.push extended.newest).items.length := by
    have countLt := extended.count_lt
    simp only [Window.push, QueueStore.window, List.length_append, List.length_singleton]
    omega
  rw [extended.window_after, Window.first_drop aligned.window.push enough,
    Window.first_push aligned.window]

theorem first_after_le : queue.window.first + extended.count ≤ queue.buildingIndex := by
  have countLt := extended.count_lt
  have enough : queue.checkpoints.length ≤ queue.buildingIndex + 1 := aligned.window
  simp only [Window.first, QueueStore.window]
  omega

include extended in
theorem aligned_after : after.Aligned := by
  have enough : queue.checkpoints.length ≤ queue.buildingIndex + 1 := aligned.window
  refine ⟨by rw [extended.buildingIndex_after]; exact extended.fits, ?_⟩
  rw [extended.after_eq]
  simp only [Window.Aligned, QueueStore.window, List.length_drop, List.length_append,
    List.length_singleton]
  omega

end Aligned

section Ordered

variable (ordered : queue.Ordered)

include extended ordered

theorem get_after {index : Nat}
    (same : after.window.item index = queue.window.item index) :
    after.get index = queue.get index := by
  rw [get_eq ordered.aligned, get_eq (extended.aligned_after ordered.aligned), same]

theorem item_newest : after.window.item after.buildingIndex = some extended.newest := by
  have lower := extended.first_after_le ordered.aligned
  rw [extended.item_after ordered.aligned, extended.buildingIndex_after, if_neg (by omega),
    if_pos rfl]

theorem get_building {older : List Checkpoint}
    (split : queue.checkpoints = older ++ [building]) :
    after.get queue.buildingIndex = .ok building := by
  have lower := extended.first_after_le ordered.aligned
  rw [extended.get_after ordered]
  · exact get_eq_ok.mpr ⟨ordered.aligned, ordered.item_building split⟩
  · rw [extended.item_after ordered.aligned, if_neg (by omega), if_neg (by omega)]

theorem signing_after {older : List Checkpoint}
    (split : queue.checkpoints = older ++ [building]) : after.signing = .ok none := by
  have got := extended.get_building ordered split
  have isBuilding : building.status = .building := ordered.last (ordered.item_building split)
  unfold signing
  by_cases short : after.checkpoints.length < 2
  · rw [if_pos short]
    rfl
  · rw [if_neg short, extended.buildingIndex_after]
    simp [Outcome.checkedSub, got, isBuilding, bind, Except.bind, pure, Except.pure]

/-- As long as what is unconfirmed is kept, it starts at the same index. -/
theorem firstOpen_after (keeps : KeepsUnconfirmed queue after) :
    after.firstOpen = queue.firstOpen := by
  cases confirmed : queue.confirmedIndex with
  | none =>
      have lower := extended.first_after_le ordered.aligned
      have upper : queue.window.first ≤ queue.buildingIndex := by omega
      have kept := keeps queue.window.first upper (by simp [AboveConfirmed, confirmed])
      obtain ⟨oldest, found⟩ := Window.exists_item ordered.aligned.window le_rfl upper
      have notPruned : ¬ 0 < extended.count := by
        intro pruned
        rw [extended.item_after ordered.aligned, if_pos (by omega), found] at kept
        cases kept
      simp only [firstOpen, extended.confirmedIndex_after, confirmed,
        extended.first_after ordered.aligned]
      omega
  | some confirmedIndex =>
      simp only [firstOpen, extended.confirmedIndex_after, confirmed]

/-- The unconfirmed checkpoints are the same as before. -/
theorem unconfirmed_after (noSigning : queue.signing = .ok none)
    (confirmedLe : ∀ confirmedIndex ∈ queue.confirmedIndex,
      confirmedIndex ≤ queue.buildingIndex - 1)
    (keeps : KeepsUnconfirmed queue after) : after.unconfirmed = queue.unconfirmed := by
  obtain ⟨older, building, split⟩ : ∃ older building, queue.checkpoints = older ++ [building] :=
    ⟨_, _, (List.dropLast_append_getLast ordered.nonempty).symm⟩
  have found := ordered.item_building split
  have isBuilding : building.status = .building := ordered.last found
  have got : queue.get queue.buildingIndex = .ok building := get_eq_ok.mpr ⟨ordered.aligned, found⟩
  have newestGot : after.get after.buildingIndex = .ok extended.newest :=
    get_eq_ok.mpr ⟨extended.aligned_after ordered.aligned, extended.item_newest ordered⟩
  have newestIncomplete : extended.newest.status ≠ .complete := by simp [extended.newest_status]
  rw [unconfirmed_eq ordered.aligned noSigning found confirmedLe (by simp [isBuilding]),
    unconfirmed_eq (extended.aligned_after ordered.aligned) (extended.signing_after ordered split)
      (extended.item_newest ordered) _ newestIncomplete, extended.firstOpen_after ordered keeps,
    extended.buildingIndex_after]
  · congr 1
    have same : ∀ index, queue.firstOpen ≤ index → index ≤ queue.buildingIndex →
        after.get index = queue.get index := by
      intro index lower upper
      apply extended.get_after ordered
      apply keeps index upper
      intro confirmedIndex confirmed
      rw [firstOpen, Option.mem_def.mp confirmed] at lower
      exact lower
    have openLe : queue.firstOpen ≤ queue.buildingIndex + 1 := by
      cases confirmed : queue.confirmedIndex with
      | none =>
          simp only [firstOpen, confirmed]
          exact (Nat.sub_le _ _)
      | some confirmedIndex =>
          have upper := confirmedLe confirmedIndex confirmed
          simp only [firstOpen, confirmed]
          omega
    by_cases beyond : queue.buildingIndex < queue.firstOpen
    · have isNext : queue.firstOpen = queue.buildingIndex + 1 := by omega
      rw [isNext, Nat.sub_self, Nat.add_sub_cancel_left]
      rw [extended.buildingIndex_after] at newestGot
      exact completeFrom_incomplete newestGot newestIncomplete
    · have through (extra : Nat) : List.range' queue.firstOpen
          (queue.buildingIndex + extra - queue.firstOpen) =
            List.range' queue.firstOpen (queue.buildingIndex - queue.firstOpen) ++
              List.range' queue.buildingIndex extra := by
        have lengthEq : queue.buildingIndex + extra - queue.firstOpen =
            (queue.buildingIndex - queue.firstOpen) + extra := by omega
        have startEq : queue.firstOpen + (queue.buildingIndex - queue.firstOpen) =
            queue.buildingIndex := by omega
        rw [lengthEq, ← List.range'_append_1, startEq]
      calc
        after.completeFrom (List.range' queue.firstOpen
            (queue.buildingIndex + 1 + 1 - queue.firstOpen)) =
            after.completeFrom (List.range' queue.firstOpen
              (queue.buildingIndex - queue.firstOpen) ++ [queue.buildingIndex]) := by
          rw [through 2]
          exact completeFrom_append (extended.get_building ordered split) (by simp [isBuilding])
        _ = after.completeFrom (List.range' queue.firstOpen
            (queue.buildingIndex + 1 - queue.firstOpen)) := by
          rw [through 1]
          rfl
        _ = queue.completeFrom (List.range' queue.firstOpen
            (queue.buildingIndex + 1 - queue.firstOpen)) := by
          apply completeFrom_congr
          intro index member
          rw [List.mem_range'_1] at member
          exact same index member.1 (by omega)
  · intro confirmedIndex confirmed
    rw [extended.confirmedIndex_after] at confirmed
    have upper := confirmedLe confirmedIndex confirmed
    rw [extended.buildingIndex_after]
    omega

end Ordered

end Extended

/-- What can be counted was confirmed before the checkpoint under construction. -/
theorem confirmed_le_of_numUnconfirmed {count : Nat} (noSigning : queue.signing = .ok none)
    (counted : queue.numUnconfirmed = .ok count)
    (confirmedLe : ∀ confirmedIndex ∈ queue.confirmedIndex,
      confirmedIndex ≤ queue.buildingIndex) :
    ∀ confirmedIndex ∈ queue.confirmedIndex, confirmedIndex ≤ queue.buildingIndex - 1 := by
  intro confirmedIndex confirmed
  have upper := confirmedLe confirmedIndex confirmed
  simp only [numUnconfirmed, noSigning, Outcome.ok_bind, Option.isSome_none, Bool.false_eq_true,
    if_false, Option.mem_def.mp confirmed] at counted
  split at counted
  · omega
  · exact (Outcome.checkedSub_eq_ok.mp counted).1

theorem estimated_of_calcFeeCheckpoint {host : Host} {config : CheckpointConfig}
    {commitment : Bytes} {fee : Nat} (read : queue.building = .ok building)
    (charged : queue.calcFeeCheckpoint host config queue.buildingIndex commitment = .ok fee) :
    building.firstTx = .ok building.mainTx ∧
      (∀ input ∈ building.mainTx.input, ∃ txin, input.toTxin host = .ok txin) ∧
      ∃ outs, building.additionalOutputs host config commitment = .ok outs := by
  have got : queue.get queue.buildingIndex = .ok building := read
  simp only [calcFeeCheckpoint, got, Outcome.ok_bind, Checkpoint.baseFee, Outcome.bind_eq_ok]
    at charged
  obtain ⟨-, -, -, ⟨vsize, estimated, -⟩, -⟩ := charged
  exact Checkpoint.estVsize_eq_ok estimated

/-- The fee of the checkpoint that was under construction is the same as
before. -/
theorem Extended.calcFeeCheckpoint_after {host : Host} {config : CheckpointConfig}
    {commitment : Bytes} {older : List Checkpoint} (extended : Extended queue after)
    (ordered : queue.Ordered) (split : queue.checkpoints = older ++ [building])
    (noSigning : queue.signing = .ok none)
    (confirmedLe : ∀ confirmedIndex ∈ queue.confirmedIndex,
      confirmedIndex ≤ queue.buildingIndex - 1)
    (keeps : KeepsUnconfirmed queue after) :
    after.calcFeeCheckpoint host config queue.buildingIndex commitment =
      queue.calcFeeCheckpoint host config queue.buildingIndex commitment := by
  have got : queue.get queue.buildingIndex = .ok building :=
    get_eq_ok.mpr ⟨ordered.aligned, ordered.item_building split⟩
  have adjustment (feeRate : Nat) :
      after.feeAdjustment host feeRate config = queue.feeAdjustment host feeRate config := by
    simp only [feeAdjustment, unconfirmedFeesPaid, unconfirmedVbytes,
      extended.unconfirmed_after ordered noSigning confirmedLe keeps]
  simp only [calcFeeCheckpoint, got, extended.get_building ordered split, adjustment]

end QueueStore

namespace Store

variable {host : Host} {env : Env} {store : Store} {commitment : Bytes} {btcHeight : Nat}

/-- The fee and the reserve that are checked before a further checkpoint is
pushed. -/
theorem buildingReady_eq_ok
    (ready : store.buildingReady host env commitment btcHeight = .ok true) :
    ∃ building fee inAmount outAmount, store.queue.building = .ok building ∧
      store.queue.calcFeeCheckpoint host store.checkpointConfig store.queue.buildingIndex
        commitment = .ok fee ∧
      building.calcTotalInputAndOutput store.checkpointConfig = .ok (inAmount, outAmount) ∧
      outAmount + fee ≤ inAmount := by
  simp only [buildingReady, Outcome.bind_eq_ok, Outcome.ite_pure_false_eq_ok] at ready
  obtain ⟨building, read, elapsed, -, -, ready⟩ := ready
  -- Whether there is anything to do does not change the last check.
  have last {α : Type} {early : Prop} [Decidable early] {tx : ContractResult α} {idle : α → Bool}
      {rest : ContractResult Bool}
      (checked : (if early then do
          let tx ← tx
          let idle ← pure (idle tx)
          if idle = true then pure false else rest
        else do
          let idle ← pure false
          if idle = true then pure false else rest) = .ok true) : rest = .ok true := by
    split at checked
    · simp only [Outcome.bind_eq_ok, Outcome.ite_pure_false_eq_ok] at checked
      obtain ⟨-, -, -, -, -, restOk⟩ := checked
      exact restOk
    · simp only [Outcome.bind_eq_ok, Outcome.ite_pure_false_eq_ok] at checked
      obtain ⟨-, -, -, restOk⟩ := checked
      exact restOk
  have paid {fee : Nat}
      (rest : (do
        let totals ← building.calcTotalInputAndOutput store.checkpointConfig
        let spent ← Outcome.checkedAdd 64 totals.2 fee
        pure (decide (spent ≤ totals.1))) = (.ok true : ContractResult Bool)) :
      ∃ inAmount outAmount,
        building.calcTotalInputAndOutput store.checkpointConfig = .ok (inAmount, outAmount) ∧
          outAmount + fee ≤ inAmount := by
    simp only [Outcome.bind_eq_ok, Outcome.checkedAdd_eq_ok, Outcome.pure_eq_ok,
      decide_eq_true_eq] at rest
    obtain ⟨totals, totalsOk, _, ⟨-, rfl⟩, covered⟩ := rest
    exact ⟨totals.1, totals.2, totalsOk, covered⟩
  split at ready
  · simp only [Outcome.bind_eq_ok, Outcome.ite_pure_false_eq_ok] at ready
    obtain ⟨_, -, _, -, -, fee, charged, ready⟩ := ready
    obtain ⟨inAmount, outAmount, totals, covered⟩ := paid (last ready)
    exact ⟨building, fee, inAmount, outAmount, read, charged, totals, covered⟩
  · simp only [Outcome.bind_eq_ok, Outcome.ite_pure_false_eq_ok] at ready
    obtain ⟨_, -, -, fee, charged, ready⟩ := ready
    obtain ⟨inAmount, outAmount, totals, covered⟩ := paid (last ready)
    exact ⟨building, fee, inAmount, outAmount, read, charged, totals, covered⟩
  · simp at ready

/-- The queue after a push and the pruning that follows it. -/
def pushAndPrune (host : Host) (env : Env) (store : Store) (depositsEnabled : Bool) :
    ContractResult QueueStore := do
  let (store, _) ← store.maybePush host env depositsEnabled
  store.queue.prune store.checkpointConfig

theorem extended_of_pushAndPrune {depositsEnabled : Bool} {queue : QueueStore}
    (nonempty : store.queue.checkpoints ≠ [])
    (should : store.shouldPush host env commitment btcHeight = .ok true)
    (grown : store.pushAndPrune host env depositsEnabled = .ok queue) :
    Nonempty (QueueStore.Extended store.queue queue) := by
  simp only [pushAndPrune, Outcome.bind_eq_ok] at grown
  obtain ⟨⟨pushedStore, pushed⟩, push, pruned⟩ := grown
  obtain ⟨index, sigset, next, -, -, aligned, rfl⟩ :=
    maybePush_eq_ok (ready_of_shouldPush should) push
  rw [nextIndex, if_neg nonempty, Outcome.checkedAdd_eq_ok] at next
  obtain ⟨-, rfl⟩ := next
  obtain ⟨count, rfl, enough, -⟩ := QueueStore.prune_eq_ok rfl pruned
  have lengthPos := List.length_pos_iff.mpr nonempty
  rw [List.length_append, List.length_singleton] at enough
  exact ⟨{
    newest := { Checkpoint.new sigset with depositsEnabled }
    count
    count_lt := by omega
    fits := aligned.fits
    newest_status := rfl
    after_eq := rfl }⟩

/-- After the push, the checkpoint that was under construction has the fee for
which it was pushed, and advances with it: the inputs that it keeps pay for the
outputs that it keeps and for the fee. -/
def AdvancesAfterPush (host : Host) (store : Store) (commitment : Bytes) (queue : QueueStore) :
    Prop :=
  ∃ building fee frozen advanced,
    store.queue.building = .ok building ∧
    store.queue.calcFeeCheckpoint host store.checkpointConfig store.queue.buildingIndex
      commitment = .ok fee ∧
    queue.calcFeeCheckpoint host store.checkpointConfig (queue.buildingIndex - 1) commitment =
      .ok fee ∧
    queue.get (queue.buildingIndex - 1) = .ok building ∧
    building.advance host commitment fee store.checkpointConfig = .ok (frozen, advanced) ∧
    ((building.mainTx.output.take (store.checkpointConfig.maxOutputs - 2)).map TxOut.value).sum +
      fee ≤ ((building.mainTx.input.take store.checkpointConfig.maxInputs).map Input.amount).sum

/-- The limits count all inputs and outputs of the transaction under
construction that they keep. -/
def CountsKept (store : Store) : Prop :=
  ∀ building, store.queue.checkpoints.getLast? = some building →
    Checkpoint.CountsKept store.checkpointConfig building.mainTx

theorem advances_of_shouldPush {depositsEnabled : Bool} {queue : QueueStore}
    (ordered : store.queue.Ordered)
    (confirmedLe : ∀ confirmedIndex ∈ store.queue.confirmedIndex,
      confirmedIndex ≤ store.queue.buildingIndex)
    (positive : 1 ≤ store.checkpointConfig.maxOutputs)
    (should : store.shouldPush host env commitment btcHeight = .ok true)
    (grown : store.pushAndPrune host env depositsEnabled = .ok queue)
    (keeps : QueueStore.KeepsUnconfirmed store.queue queue) (counts : CountsKept store) :
    AdvancesAfterPush host store commitment queue := by
  obtain ⟨extended⟩ := extended_of_pushAndPrune ordered.nonempty should grown
  obtain ⟨noSigning, ready, ⟨count, counted, -⟩, -⟩ := shouldPush_eq_ok should
  obtain ⟨building, fee, inAmount, outAmount, read, charged, totals, covered⟩ :=
    buildingReady_eq_ok (ready ordered.nonempty)
  obtain ⟨-, older, split⟩ := QueueStore.building_eq_ok.mp read
  have confirmedBefore := QueueStore.confirmed_le_of_numUnconfirmed noSigning counted confirmedLe
  have sameFee : queue.calcFeeCheckpoint host store.checkpointConfig store.queue.buildingIndex
      commitment = .ok fee := by
    rw [extended.calcFeeCheckpoint_after ordered split noSigning confirmedBefore keeps]
    exact charged
  obtain ⟨first, converts, outs, added⟩ := QueueStore.estimated_of_calcFeeCheckpoint read charged
  obtain ⟨inEq, outEq, inLt⟩ := Checkpoint.calcTotalInputAndOutput_eq_ok first totals
  have kept := counts building (by rw [split, List.getLast?_concat])
  have keptIn : building.mainTx.input.take (Checkpoint.asUsize store.checkpointConfig.maxInputs) =
      building.mainTx.input.take store.checkpointConfig.maxInputs :=
    Checkpoint.take_asUsize kept.inputs
  have keptOut : ((building.mainTx.output.map TxOut.value).take
        (store.checkpointConfig.maxOutputs - 2)).sum ≤
      ((building.mainTx.output.map TxOut.value).take
        (Checkpoint.asUsize store.checkpointConfig.maxOutputs)).sum :=
    Checkpoint.sum_take_le _ (by rw [List.length_map]; exact kept.outputs)
  rw [← List.map_take, ← List.map_take, ← outEq] at keptOut
  rw [keptIn] at inEq
  have outsEq := Checkpoint.sum_take_additional added building.mainTx.output
  obtain ⟨frozen, advanced, advancedOk⟩ : ∃ frozen advanced,
      building.advance host commitment fee store.checkpointConfig = .ok (frozen, advanced) := by
    apply Checkpoint.exists_advance first added converts
      (Checkpoint.take_additional_ne_nil added _ positive)
    · rw [← inEq]
      exact inLt
    · rw [outsEq, ← inEq]
      omega
  have prevIndex : queue.buildingIndex - 1 = store.queue.buildingIndex := by
    rw [extended.buildingIndex_after, Nat.add_sub_cancel]
  refine ⟨building, fee, frozen, advanced, read, charged, ?_, ?_, advancedOk, ?_⟩
  · rw [prevIndex]
    exact sameFee
  · rw [prevIndex]
    exact extended.get_building ordered split
  · omega

end Store

namespace Contract

/-- The confirmed checkpoint is never above the one under construction. -/
theorem run_confirmed_le (host : Host) (info : MessageInfo) (msg : InstantiateMsg)
    (calls : List Call) :
    let queue := ((machine host).run (instantiate host info msg) calls).queue
    ∀ confirmedIndex ∈ queue.confirmedIndex, confirmedIndex ≤ queue.buildingIndex := by
  have start : ∀ confirmedIndex ∈ (instantiate host info msg).queue.confirmedIndex,
      confirmedIndex ≤ (instantiate host info msg).queue.buildingIndex := nofun
  have permitted := (machine host).permitted_all (instantiate host info msg) calls
  refine (run_preserves (fun queue : QueueStore => ∀ confirmedIndex ∈ queue.confirmedIndex,
    confirmedIndex ≤ queue.buildingIndex) ?_ (.empty rfl rfl) start permitted.onSuccess).2
  intro store call shaped holds _
  constructor
  · intro deposit after _ credited
    rw [credited.after_eq]
    exact holds
  · intro queue after _ queueHolds withdrawn
    rw [withdrawn.after_eq]
    exact queueHolds
  · intro signature after _ signed
    obtain ⟨_, _, -, -, -, rfl⟩ := QueueStore.sign_completed signed
    exact holds
  · intro cpIndex checkpoint _ got _ confirmedIndex isConfirmed
    obtain rfl := Option.some.inj isConfirmed
    obtain ⟨aligned, found⟩ := QueueStore.get_eq_ok.mp got
    exact Window.le_last_of_item aligned.window found
  · intro queue index checkpoint _ queueHolds _
    exact queueHolds
  · intro queue next queueHolds
    exact queueHolds
  · intro before after beforeHolds first
    rw [first.confirmedIndex_after, first.buildingIndex_after, ← first.buildingIndex_eq]
    exact beforeHolds
  · intro hash dests unitsPerSat queue after _ _ _ _ queueHolds rollover confirmedIndex isConfirmed
    rw [rollover.confirmedIndex_after] at isConfirmed
    rw [rollover.buildingIndex_after]
    exact (queueHolds confirmedIndex isConfirmed).trans (Nat.le_succ _)

/-- In every state that calls can reach, and under every configuration whose
limits count what they keep, a checkpoint that should be pushed lets the one
before it advance with the fee that was checked. -/
theorem run_shouldPush_advances (host : Host) (info : MessageInfo) (msg : InstantiateMsg)
    (calls : List Call) (config : CheckpointConfig) (env : Env) (commitment : Bytes)
    (btcHeight : Nat) (depositsEnabled : Bool) (queue : QueueStore) :
    let store : Store :=
      { (machine host).run (instantiate host info msg) calls with checkpointConfig := config }
    1 ≤ config.maxOutputs → store.queue.checkpoints ≠ [] →
    store.shouldPush host env commitment btcHeight = .ok true →
    store.pushAndPrune host env depositsEnabled = .ok queue →
    QueueStore.KeepsUnconfirmed store.queue queue → store.CountsKept →
      store.AdvancesAfterPush host commitment queue := by
  intro store positive nonempty should grown keeps counts
  have ordered : store.queue.Ordered := by
    cases run_shaped host info msg calls with
    | empty checkpoints_eq buildingIndex_eq => exact absurd checkpoints_eq nonempty
    | ordered ordered => exact ordered
  exact Store.advances_of_shouldPush ordered (run_confirmed_le host info msg calls) positive should
    grown keeps counts

end Contract

namespace Sample

/-- Checkpoint parameters with another charge for the users. -/
def chargingConfig (userFeeFactor : Nat) : CheckpointConfig :=
  { CheckpointConfig.default with userFeeFactor }

/-- A limit of outputs that is zero as a 32-bit number. -/
def wideConfig : CheckpointConfig := { CheckpointConfig.default with maxOutputs := 2 ^ 32 }

/-- The receiver of the deposit with all of the coins that it was credited. -/
def holder : MessageInfo := { sender := "a", funds := [⟨"factory/factory/obtc", 9982620000000⟩] }

/-- A deposit that is credited, and its withdrawal from the next checkpoint at
no charge. -/
def withdrawingCalls : List Contract.Call := openingCalls largeDepositTx ++ [
  executeAt 0 (.updateCheckpointConfig (chargingConfig 20000)),
  .clockEndBlock querier (env 1000) [1],
  relayDepositAt 1010 7 largeDepositTx "a",
  .clockEndBlock querier (env 1400) [2],
  signFirst,
  executeAt 1420 (.updateBitcoinConfig { BitcoinConfig.default with minWithdrawalCheckpoints := 0 }),
  executeAt 1420 (.updateCheckpointConfig (chargingConfig 0)),
  .clockEndBlock querier (env 1420) [3],
  .execute querier (env 1430) holder (.withdrawToBitcoin "b")]

/-- The state after the given calls, under other checkpoint parameters. -/
def configured (calls : List Contract.Call) (config : CheckpointConfig) : Store :=
  { (Contract.machine host).run initial calls with checkpointConfig := config }

/-- The queue after a push long after the last one. -/
def pushedQueue (store : Store) : QueueStore :=
  match store.pushAndPrune host (env 1100000) true with
  | .ok queue => queue
  | .error _ => store.queue

end Sample

namespace Contract

theorem run_shouldPush_advances_signed :
    let store := Sample.configured (Sample.setupCalls ++ [Sample.signFirst])
      CheckpointConfig.default
    store.queue.buildingIndex = 1 ∧
      store.AdvancesAfterPush Sample.host [4] (Sample.pushedQueue store) :=
  ⟨by decide +kernel, run_shouldPush_advances Sample.host Sample.info Sample.instantiateMsg
    (Sample.setupCalls ++ [Sample.signFirst]) CheckpointConfig.default (Sample.env 1100000) [4] 7
    true _ (by decide) (by decide +kernel) (by decide +kernel) (by decide +kernel)
    (by decide +kernel) (fun building _ => Checkpoint.countsKept_of_lt building.mainTx (by decide)
      (by decide))⟩

/-- With a limit of outputs that is zero as an index, a checkpoint is pushed
whose predecessor cannot pay for its outputs. -/
theorem shouldPush_advance_fails :
    let store := Sample.configured Sample.withdrawingCalls Sample.wideConfig
    (1 ≤ store.checkpointConfig.maxOutputs ∧ store.queue.checkpoints ≠ [] ∧
        store.shouldPush Sample.host (Sample.env 1100000) [4] 7 = .ok true ∧
        store.pushAndPrune Sample.host (Sample.env 1100000) true =
          .ok (Sample.pushedQueue store) ∧
        QueueStore.KeepsUnconfirmed store.queue (Sample.pushedQueue store)) ∧
      ¬ store.AdvancesAfterPush Sample.host [4] (Sample.pushedQueue store) := by
  refine ⟨by decide +kernel, ?_⟩
  rintro ⟨building, fee, frozen, advanced, read, charged, -, -, advancedOk, -⟩
  have isBuilding : QueueStore.building
      (Sample.configured Sample.withdrawingCalls Sample.wideConfig).queue =
        .ok (Sample.checkpointAt (Sample.configured Sample.withdrawingCalls Sample.wideConfig) 1) := by
    decide +kernel
  obtain rfl := Except.ok.inj (isBuilding.symm.trans read)
  have isFee : QueueStore.calcFeeCheckpoint Sample.host
      (Sample.configured Sample.withdrawingCalls Sample.wideConfig).queue Sample.wideConfig
        (Sample.configured Sample.withdrawingCalls Sample.wideConfig).queue.buildingIndex [4] =
          .ok 9350 := by
    decide +kernel
  obtain rfl : 9350 = fee := Except.ok.inj (isFee.symm.trans charged)
  have fails : Checkpoint.advance Sample.host
      (Sample.checkpointAt (Sample.configured Sample.withdrawingCalls Sample.wideConfig) 1) [4] 9350
        Sample.wideConfig =
          Outcome.fail (.checkpoint "Insufficient reserve value to cover miner fees") := by
    decide +kernel
  exact Outcome.fail_ne_ok (fails.symm.trans advancedOk)

end Contract

end CwBitcoin
