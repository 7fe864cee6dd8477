import CwBitcoin.QueueSteps

/-!
# Starting a new checkpoint

When the queue steps, it pushes a checkpoint, prunes old ones, freezes the one
that was under construction and fills the new one with what was left over.
-/

namespace CwBitcoin

theorem SignatorySet.fromValidatorCtx_index {host : Host} {validators : List Validator}
    {sigKey : ConsensusKey → Option Xpub} {createTime index : Nat} {sigset : SignatorySet}
    (built : fromValidatorCtx host validators sigKey createTime index = .ok sigset) :
    sigset.createTime = createTime ∧ sigset.index = index := by
  simp only [fromValidatorCtx, Outcome.bind_eq_ok] at built
  obtain ⟨collecting, folded, truncated⟩ := built
  simp only [sortAndTruncate, Outcome.bind_eq_ok, Outcome.pure_eq_ok] at truncated
  obtain ⟨presentVp, -, rfl⟩ := truncated
  have preserve (sigset : SignatorySet) (entry : Validator) (next : SignatorySet)
      (holds : sigset.createTime = createTime ∧ sigset.index = index)
      (added : sigset.addValidator host sigKey entry = .ok next) :
      next.createTime = createTime ∧ next.index = index := by
    simp only [addValidator, Outcome.bind_eq_ok] at added
    obtain ⟨possibleVp, -, added⟩ := added
    split at added
    · rwa [← Outcome.pure_eq_ok.mp added]
    · simp only [insert, Outcome.bind_eq_ok, Outcome.pure_eq_ok] at added
      obtain ⟨pubkey, -, presentVp, -, rfl⟩ := added
      exact holds
  have collected : collecting.createTime = createTime ∧ collecting.index = index :=
    Outcome.foldlM_invariant preserve ⟨rfl, rfl⟩ folded
  exact collected

namespace QueueStore

/-- The checkpoints that pruning drops from the front are too old, and ten
remain after each of them. -/
def Outdated (checkpoints : List Checkpoint) (latest maxAge count : Nat) : Prop :=
  ∀ position checkpoint, position < count → checkpoints[position]? = some checkpoint →
    position + 10 < checkpoints.length ∧ maxAge < latest - checkpoint.createTime

/-- Pruning drops outdated checkpoints at the front, and leaves ten if it drops
any. -/
theorem pruneCheckpoints_eq_ok {latest maxAge : Nat} {checkpoints remaining : List Checkpoint}
    (pruned : pruneCheckpoints latest maxAge checkpoints = .ok remaining) :
    ∃ count, remaining = checkpoints.drop count ∧
      (count = 0 ∨ count + 10 ≤ checkpoints.length) ∧
      Outdated checkpoints latest maxAge count := by
  induction checkpoints with
  | nil =>
      simp only [pruneCheckpoints, Except.ok.injEq] at pruned
      exact ⟨0, by simp [← pruned], Or.inl rfl, nofun⟩
  | cons oldest rest ih =>
      simp only [pruneCheckpoints] at pruned
      split at pruned
      · exact ⟨0, by simpa using pruned.symm, Or.inl rfl, nofun⟩
      · rename_i long
        simp only [Outcome.bind_eq_ok, Outcome.checkedSub_eq_ok] at pruned
        obtain ⟨age, ⟨-, rfl⟩, pruned⟩ := pruned
        split at pruned
        · exact ⟨0, (Outcome.pure_eq_ok.mp pruned).symm, Or.inl rfl, nofun⟩
        · rename_i tooOld
          obtain ⟨count, rfl, enough, outdated⟩ := ih pruned
          refine ⟨count + 1, by simp, Or.inr ?_, ?_⟩
          · rw [List.length_cons]
            omega
          · intro position checkpoint dropped found
            rw [List.length_cons]
            cases position with
            | zero =>
                obtain rfl : oldest = checkpoint := by simpa using found
                exact ⟨by omega, by omega⟩
            | succ position =>
                have older := outdated position checkpoint (by omega) (by simpa using found)
                exact ⟨by omega, older.2⟩

theorem prune_eq_ok {queue after : QueueStore} {config : CheckpointConfig} {older : List Checkpoint}
    {building : Checkpoint} (split : queue.checkpoints = older ++ [building])
    (pruned : queue.prune config = .ok after) :
    ∃ count, after = { queue with
        checkpoints := queue.checkpoints.drop count
        head := queue.head + count } ∧
      (count = 0 ∨ count + 10 ≤ queue.checkpoints.length) ∧
      Outdated queue.checkpoints building.createTime config.maxAge count := by
  simp only [prune, Outcome.bind_eq_ok, Outcome.pure_eq_ok] at pruned
  obtain ⟨last, read, checkpoints, prunedOk, rfl⟩ := pruned
  obtain ⟨-, others, sameSplit⟩ := building_eq_ok.mp read
  obtain ⟨-, sameLast⟩ := List.append_inj' (split.symm.trans sameSplit) rfl
  obtain rfl := (List.cons.inj sameLast).1
  obtain ⟨count, rfl, enough, outdated⟩ := pruneCheckpoints_eq_ok prunedOk
  have popped : queue.checkpoints.length - (queue.checkpoints.drop count).length = count := by
    rw [List.length_drop]
    omega
  exact ⟨count, by rw [popped], enough, outdated⟩

/-- The fee of a checkpoint covers its own size. -/
theorem baseFee_le_calcFeeCheckpoint {host : Host} {queue : QueueStore} {config : CheckpointConfig}
    {cpIndex fee : Nat} {commitment : Bytes} {checkpoint : Checkpoint}
    (got : queue.get cpIndex = .ok checkpoint)
    (charged : queue.calcFeeCheckpoint host config cpIndex commitment = .ok fee) :
    ∃ vsize, checkpoint.estVsize host config commitment = .ok vsize ∧
      checkpoint.feeRate * vsize ≤ fee := by
  simp only [calcFeeCheckpoint, got, Outcome.ok_bind, Outcome.bind_eq_ok, Checkpoint.baseFee,
    Outcome.checkedMul_eq_ok, Outcome.checkedAdd_eq_ok] at charged
  obtain ⟨additionalFees, -, baseFee, ⟨vsize, estimated, -, rfl⟩, -, rfl⟩ := charged
  refine ⟨vsize, estimated, ?_⟩
  rw [Nat.mul_comm]
  exact Nat.le_add_right _ _

end QueueStore

namespace Checkpoint

/-- A checkpoint whose transaction is ready to be signed. -/
def frozenAs (building : Checkpoint) (frozenTx : BitcoinTx) : Checkpoint :=
  { building.setFirstTx frozenTx with status := .signing }

/-- A new checkpoint with what the previous one handed over. -/
def started (sigset : SignatorySet) (depositsEnabled : Bool) (feeRate : Nat) (input : List Input)
    (output : List TxOut) : Checkpoint :=
  { new sigset with
    depositsEnabled
    feeRate
    batches := [{
      signedTxs := 0
      batch := [{ BitcoinTx.default with input, output }] }] }

/-- The parts of `advance`. -/
theorem advance_eq_ok {host : Host} {checkpoint frozen : Checkpoint} {commitment : Bytes}
    {cpFees : Nat} {config : CheckpointConfig} {advanced : Advanced}
    (advancedOk : checkpoint.advance host commitment cpFees config = .ok (frozen, advanced)) :
    ∃ outs frozenTx, checkpoint.additionalOutputs host config commitment = .ok outs ∧
      checkpoint.firstTx = .ok checkpoint.mainTx ∧
      freezeTx host config cpFees outs checkpoint.mainTx =
        .ok (frozenTx, advanced.reserveValue) ∧
      frozen = checkpoint.frozenAs frozenTx ∧
      advanced = {
        reserveOutpoint := ⟨host.txHash frozenTx.skeleton, 0⟩
        reserveValue := advanced.reserveValue
        feesPaid := cpFees
        excessInputs := (checkpoint.mainTx.input.drop config.maxInputs).reverse
        excessOutputs := ((outs ++ checkpoint.mainTx.output).drop config.maxOutputs).reverse } := by
  simp only [advance, Outcome.bind_eq_ok, Outcome.pure_eq_ok, Prod.mk.injEq] at advancedOk
  obtain ⟨outs, added, tx, first, ⟨frozenTx, reserveValue⟩, frozenOk, txid, identified, rfl, rfl⟩ :=
    advancedOk
  obtain rfl := mainTx_of_firstTx first
  refine ⟨outs, frozenTx, added, first, frozenOk, rfl, ?_⟩
  rw [BitcoinTx.txid_eq identified]

end Checkpoint

namespace Store

variable {host : Host} {env : Env} {store after : Store} {commitment : Bytes} {btcHeight : Nat}

/-- What must hold before a checkpoint is pushed. -/
structure Ready (host : Host) (env : Env) (store : Store) : Prop where
  signing_eq : store.queue.signing = .ok none
  time_le : ∀ building, store.queue.checkpoints.getLast? = some building →
    building.createTime ≤ env.seconds
  unconfirmed : ∃ count, store.queue.numUnconfirmed = .ok count
  sigset : ∃ index sigset, store.nextIndex = .ok index ∧
    store.signatorySet host env.seconds index = .ok sigset ∧ usable sigset = true

theorem time_le_of_buildingReady {ready : Bool}
    (checked : store.buildingReady host env commitment btcHeight = .ok ready) :
    ∃ building, store.queue.building = .ok building ∧ building.createTime ≤ env.seconds := by
  simp only [buildingReady, Outcome.bind_eq_ok, Outcome.checkedSub_eq_ok] at checked
  obtain ⟨building, read, elapsed, ⟨ordered, -⟩, -⟩ := checked
  exact ⟨building, read, ordered⟩

/-- Everything that is checked before a checkpoint is pushed. -/
theorem shouldPush_eq_ok
    (should : store.shouldPush host env commitment btcHeight = .ok true) :
    store.queue.signing = .ok none ∧
      (store.queue.checkpoints ≠ [] →
        store.buildingReady host env commitment btcHeight = .ok true) ∧
      (∃ count, store.queue.numUnconfirmed = .ok count ∧
        count < store.checkpointConfig.maxUnconfirmedCheckpoints) ∧
      ∃ index sigset, store.nextIndex = .ok index ∧
        store.signatorySet host env.seconds index = .ok sigset ∧ usable sigset = true := by
  simp only [shouldPush, Outcome.bind_eq_ok] at should
  obtain ⟨signing, readSigning, should⟩ := should
  split at should
  · simp at should
  · rename_i noSigning
    obtain rfl : signing = none := by simpa using noSigning
    have rest (ready : Bool)
        (should : (if ready = false then pure false else do
          let unconfs ← store.queue.numUnconfirmed
          if store.checkpointConfig.maxUnconfirmedCheckpoints ≤ unconfs then pure false
          else do
            let index ← store.nextIndex
            let sigset ← store.signatorySet host env.seconds index
            pure (usable sigset)) = (.ok true : ContractResult Bool)) :
        ready = true ∧ (∃ count, store.queue.numUnconfirmed = .ok count ∧
          count < store.checkpointConfig.maxUnconfirmedCheckpoints) ∧
          ∃ index sigset, store.nextIndex = .ok index ∧
            store.signatorySet host env.seconds index = .ok sigset ∧ usable sigset = true := by
      split at should
      · simp at should
      · rename_i isReady
        simp only [Outcome.bind_eq_ok] at should
        obtain ⟨unconfs, counted, should⟩ := should
        split at should
        · simp at should
        · rename_i belowLimit
          simp only [Outcome.bind_eq_ok, Outcome.pure_eq_ok] at should
          obtain ⟨index, next, sigset, built, isUsable⟩ := should
          exact ⟨by simpa using isReady, ⟨unconfs, counted, Nat.lt_of_not_le belowLimit⟩,
            index, sigset, next, built, isUsable⟩
    split at should
    · rename_i empty
      exact ⟨readSigning, fun nonempty => absurd empty nonempty, (rest true should).2⟩
    · simp only [Outcome.bind_eq_ok] at should
      obtain ⟨ready, checked, should⟩ := should
      obtain ⟨rfl, others⟩ := rest ready should
      exact ⟨readSigning, fun _ => checked, others⟩

theorem ready_of_shouldPush
    (should : store.shouldPush host env commitment btcHeight = .ok true) :
    Ready host env store := by
  obtain ⟨noSigning, checked, ⟨count, counted, -⟩, sigset⟩ := shouldPush_eq_ok should
  refine ⟨noSigning, ?_, ⟨count, counted⟩, sigset⟩
  intro last lastEq
  have nonempty : store.queue.checkpoints ≠ [] := by
    intro empty
    simp [empty] at lastEq
  obtain ⟨building, read, ordered⟩ := time_le_of_buildingReady (checked nonempty)
  obtain ⟨-, older, split⟩ := QueueStore.building_eq_ok.mp read
  rw [split, List.getLast?_concat, Option.some.injEq] at lastEq
  rwa [← lastEq]

/-- A pushed checkpoint has the next index and the signatory set that was
checked before. -/
theorem maybePush_eq_ok {depositsEnabled : Bool} {pushed : Option Checkpoint}
    (ready : Ready host env store)
    (push : store.maybePush host env depositsEnabled = .ok (after, pushed)) :
    ∃ index sigset, store.nextIndex = .ok index ∧
      store.signatorySet host env.seconds index = .ok sigset ∧ pushed.isSome ∧
      after.queue.Aligned ∧
      after = { store with queue := { store.queue with
        buildingIndex := index
        checkpoints := store.queue.checkpoints ++
          [{ Checkpoint.new sigset with depositsEnabled }] } } := by
  obtain ⟨index, sigset, next, built, isUsable⟩ := ready.sigset
  simp only [maybePush, Outcome.bind_eq_ok] at push
  obtain ⟨sameIndex, nextAgain, sameSigset, builtAgain, push⟩ := push
  obtain rfl : index = sameIndex := Except.ok.inj (next.symm.trans nextAgain)
  obtain rfl : sigset = sameSigset := Except.ok.inj (built.symm.trans builtAgain)
  rw [if_neg (by simp [isUsable])] at push
  simp only [Outcome.bind_eq_ok, Outcome.pure_eq_ok, Prod.mk.injEq] at push
  obtain ⟨building, read, queue, wrote, rfl, rfl⟩ := push
  obtain ⟨aligned, older, split⟩ := QueueStore.building_eq_ok.mp read
  obtain ⟨rfl, last⟩ := List.append_inj' split rfl
  obtain rfl := (List.cons.inj last).1
  obtain rfl := QueueStore.set_building split wrote
  exact ⟨index, sigset, next, built, rfl, ⟨aligned.fits,
    by simpa [QueueStore.window, Window.Aligned] using aligned.window⟩, rfl⟩

/-- The miner fees of the checkpoint that a step freezes. -/
def stepFees (host : Host) (env : Env) (store : Store) (depositsEnabled : Bool)
    (commitment : Bytes) : ContractResult Nat := do
  let (store, _) ← store.maybePush host env depositsEnabled
  let queue ← store.queue.prune store.checkpointConfig
  queue.calcFeeCheckpoint host store.checkpointConfig (queue.buildingIndex - 1) commitment

/-- Everything that happens when a further checkpoint is started. -/
structure Rollover (host : Host) (env : Env) (commitment : Bytes) (unitsPerSat : Nat)
    (store after : Store) where
  older : List Checkpoint
  building : Checkpoint
  checkpoints_eq : store.queue.checkpoints = older ++ [building]
  aligned : store.queue.Aligned
  fits : store.queue.buildingIndex + 2 < 2 ^ 32
  ready : Ready host env store
  sigset : SignatorySet
  sigset_eq : store.signatorySet host env.seconds (store.queue.buildingIndex + 1) = .ok sigset
  pruned : Nat
  pruned_le : pruned = 0 ∨ pruned + 10 ≤ older.length + 2
  outdated : ∀ position checkpoint, position < pruned → older[position]? = some checkpoint →
    position + 10 < older.length + 2 ∧
      store.checkpointConfig.maxAge < env.seconds - checkpoint.createTime
  depositsEnabled : Bool
  cpFees : Nat
  cpFees_eq : stepFees host env store depositsEnabled commitment = .ok cpFees
  vsize : Nat
  vsize_eq : building.estVsize host store.checkpointConfig commitment = .ok vsize
  baseFee_le : building.feeRate * vsize ≤ cpFees
  feeUnits_lt : cpFees * unitsPerSat < 2 ^ 64
  outs : List TxOut
  outs_eq : building.additionalOutputs host store.checkpointConfig commitment = .ok outs
  firstTx_eq : building.firstTx = .ok building.mainTx
  frozenTx : BitcoinTx
  reserveValue : Nat
  frozen_eq : Checkpoint.freezeTx host store.checkpointConfig cpFees outs building.mainTx =
    .ok (frozenTx, reserveValue)
  reserveInput : Input
  reserveInput_eq : Input.new host ⟨host.txHash frozenTx.skeleton, 0⟩ building.sigset [0]
    reserveValue store.checkpointConfig.sigsetThreshold = .ok reserveInput
  excess : List Input
  excess_eq : excess.map Input.unsigned =
    (building.mainTx.input.drop store.checkpointConfig.maxInputs).reverse.map Input.unsigned
  excess_fresh : ∀ input ∈ excess, ∃ shares, ThresholdSig.fromShares shares = .ok input.signatures
  excess_sigs : excess.map (fun input => input.signatures.sigs) =
    (building.mainTx.input.drop store.checkpointConfig.maxInputs).reverse.map
      fun input => input.signatures.sigs
  feeRate : Nat
  after_eq : after = { store with
    feePool := store.feePool - asI64 (cpFees * unitsPerSat)
    queue := { store.queue with
      head := store.queue.head + pruned
      buildingIndex := store.queue.buildingIndex + 1
      checkpoints := older.drop pruned ++
        [building.frozenAs frozenTx,
          Checkpoint.started sigset depositsEnabled feeRate (reserveInput :: excess)
            ((outs ++ building.mainTx.output).drop store.checkpointConfig.maxOutputs).reverse] } }

namespace Rollover

variable {unitsPerSat : Nat} (rollover : Rollover host env commitment unitsPerSat store after)

/-- The frozen form of the checkpoint that was under construction. -/
def frozen : Checkpoint := rollover.building.frozenAs rollover.frozenTx

/-- The new checkpoint. -/
def fresh : Checkpoint :=
  Checkpoint.started rollover.sigset rollover.depositsEnabled rollover.feeRate
    (rollover.reserveInput :: rollover.excess)
    ((rollover.outs ++ rollover.building.mainTx.output).drop
      store.checkpointConfig.maxOutputs).reverse

theorem checkpoints_after : after.queue.checkpoints =
    rollover.older.drop rollover.pruned ++ [rollover.frozen, rollover.fresh] :=
  congrArg (fun store : Store => store.queue.checkpoints) rollover.after_eq

include rollover in
theorem buildingIndex_after : after.queue.buildingIndex = store.queue.buildingIndex + 1 :=
  congrArg (fun store : Store => store.queue.buildingIndex) rollover.after_eq

include rollover in
theorem confirmedIndex_after : after.queue.confirmedIndex = store.queue.confirmedIndex := by
  rw [rollover.after_eq]

include rollover in
theorem checkpointConfig_after : after.checkpointConfig = store.checkpointConfig := by
  rw [rollover.after_eq]

include rollover in
theorem outpoints_after : after.outpoints = store.outpoints := by
  rw [rollover.after_eq]

theorem pruned_le_older : rollover.pruned ≤ rollover.older.length := by
  have := rollover.pruned_le
  omega

theorem item_building : store.queue.window.item store.queue.buildingIndex = some rollover.building :=
  Window.item_last rollover.aligned.window rollover.checkpoints_eq

include rollover in
theorem aligned_after : after.queue.Aligned := by
  have enough : store.queue.checkpoints.length ≤ store.queue.buildingIndex + 1 :=
    rollover.aligned.window
  rw [rollover.checkpoints_eq, List.length_append, List.length_singleton] at enough
  refine ⟨by rw [rollover.buildingIndex_after]; exact rollover.fits, ?_⟩
  change after.queue.checkpoints.length ≤ after.queue.buildingIndex + 1
  rw [rollover.checkpoints_after, rollover.buildingIndex_after, List.length_append,
    List.length_drop, List.length_cons, List.length_singleton]
  omega

/-- Freezing, pushing and pruning as operations of the window. -/
theorem window_after : after.queue.window =
    ((store.queue.window.put store.queue.buildingIndex rollover.frozen).push
      rollover.fresh).drop rollover.pruned := by
  have putItems : (store.queue.window.put store.queue.buildingIndex rollover.frozen).items =
      rollover.older ++ [rollover.frozen] :=
    Window.put_last rollover.aligned.window rollover.checkpoints_eq rollover.frozen
  have items : (((store.queue.window.put store.queue.buildingIndex rollover.frozen).push
      rollover.fresh).drop rollover.pruned).items =
        rollover.older.drop rollover.pruned ++ [rollover.frozen, rollover.fresh] := by
    simp only [Window.drop, Window.push, putItems]
    rw [List.append_assoc, List.drop_append_of_le_length rollover.pruned_le_older]
    rfl
  rw [QueueStore.window, rollover.checkpoints_after, ← items, rollover.buildingIndex_after]
  rfl

theorem pushed_aligned : ((store.queue.window.put store.queue.buildingIndex
    rollover.frozen).push rollover.fresh).Aligned :=
  (rollover.aligned.window.put rollover.frozen).push

theorem pruned_le_pushed : rollover.pruned ≤ ((store.queue.window.put store.queue.buildingIndex
    rollover.frozen).push rollover.fresh).items.length := by
  have lengthEq : store.queue.window.items.length = rollover.older.length + 1 := by
    simp [QueueStore.window, rollover.checkpoints_eq]
  have := rollover.pruned_le_older
  simp only [Window.push, Window.put, List.length_append, List.length_set, List.length_singleton,
    lengthEq]
  omega

theorem first_after : after.queue.window.first = store.queue.window.first + rollover.pruned := by
  rw [rollover.window_after, Window.first_drop rollover.pushed_aligned rollover.pruned_le_pushed,
    Window.first_push (rollover.aligned.window.put rollover.frozen), Window.first_put]

/-- Which checkpoint has which index after the step. -/
theorem item_after (index : Nat) : after.queue.window.item index =
    if index < store.queue.window.first + rollover.pruned then none
    else if index = store.queue.buildingIndex + 1 then some rollover.fresh
    else if index = store.queue.buildingIndex then some rollover.frozen
    else store.queue.window.item index := by
  have putAligned : (store.queue.window.put store.queue.buildingIndex rollover.frozen).Aligned :=
    rollover.aligned.window.put rollover.frozen
  rw [rollover.window_after, Window.item_drop rollover.pushed_aligned rollover.pruned_le_pushed,
    Window.first_push putAligned, Window.first_put, Window.item_push putAligned,
    Window.item_put rollover.item_building]
  rfl

/-- A checkpoint after the step is new, newly frozen or was there before. -/
theorem item_after_cases {index : Nat} {checkpoint : Checkpoint}
    (found : after.queue.window.item index = some checkpoint) :
    (index = store.queue.buildingIndex + 1 ∧ checkpoint = rollover.fresh) ∨
      (index = store.queue.buildingIndex ∧ checkpoint = rollover.frozen) ∨
        (index < store.queue.buildingIndex ∧
          store.queue.window.item index = some checkpoint) := by
  rw [rollover.item_after] at found
  split_ifs at found with pruned isFresh isFrozen
  · exact Or.inl ⟨isFresh, (Option.some.inj found).symm⟩
  · exact Or.inr (Or.inl ⟨isFrozen, (Option.some.inj found).symm⟩)
  · have upper : index ≤ store.queue.buildingIndex :=
      Window.le_last_of_item rollover.aligned.window found
    exact Or.inr (Or.inr ⟨by omega, found⟩)

theorem get_frozen : after.queue.get store.queue.buildingIndex = .ok rollover.frozen := by
  have item : after.queue.window.item (after.queue.buildingIndex - 1) = some rollover.frozen :=
    Window.item_before_last rollover.aligned_after.window rollover.checkpoints_after
  rw [rollover.buildingIndex_after, Nat.add_sub_cancel] at item
  exact QueueStore.get_eq_ok.mpr ⟨rollover.aligned_after, item⟩

theorem mainTx_frozen : rollover.frozen.mainTx = rollover.frozenTx :=
  Checkpoint.mainTx_setFirstTx rollover.firstTx_eq

theorem unsigned_frozenTx : rollover.frozen.mainTx.unsigned.input =
    rollover.building.mainTx.unsigned.input.take store.checkpointConfig.maxInputs := by
  obtain ⟨reserve, others, -, unsigned_eq, -⟩ := Checkpoint.freezeTx_eq_ok rollover.frozen_eq
  rw [rollover.mainTx_frozen, unsigned_eq]
  exact List.map_take

/-- The first output of the frozen transaction is the reserve. -/
theorem reserve_eq : ∃ redeemScript, rollover.building.sigset.redeemScript [0]
      store.checkpointConfig.sigsetThreshold = .ok redeemScript ∧
    rollover.frozenTx.output.head? =
      some ⟨rollover.reserveValue, toV0P2wsh host redeemScript⟩ := by
  obtain ⟨reserve, others, outputs, unsigned_eq, -⟩ := Checkpoint.freezeTx_eq_ok rollover.frozen_eq
  obtain ⟨reserveScript, commitmentScript, scriptOk, outsEq⟩ :=
    Checkpoint.additionalOutputs_eq_ok rollover.outs_eq
  simp only [SignatorySet.outputScript, Outcome.bind_eq_ok, Outcome.pure_eq_ok] at scriptOk
  obtain ⟨redeemScript, redeemed, rfl⟩ := scriptOk
  refine ⟨redeemScript, redeemed, ?_⟩
  have reserveEq : reserve = ⟨0, toV0P2wsh host redeemScript⟩ := by
    rw [outsEq] at outputs
    cases limit : store.checkpointConfig.maxOutputs with
    | zero => simp [limit] at outputs
    | succ limit =>
        rw [limit, List.cons_append, List.take_succ_cons] at outputs
        exact (List.cons.inj outputs).1.symm
  rw [BitcoinTx.output_congr unsigned_eq, reserveEq]
  rfl

end Rollover

/-- The first checkpoint of the queue. -/
structure FirstPush (host : Host) (env : Env) (store after : Store) where
  empty : store.queue.checkpoints = []
  buildingIndex_eq : store.queue.buildingIndex = 0
  sigset : SignatorySet
  sigset_eq : store.signatorySet host env.seconds 0 = .ok sigset
  depositsEnabled : Bool
  after_eq : after = { store with queue := { store.queue with
    checkpoints := [{ Checkpoint.new sigset with depositsEnabled }] } }

theorem FirstPush.checkpoints_after (first : FirstPush host env store after) :
    after.queue.checkpoints =
      [{ Checkpoint.new first.sigset with depositsEnabled := first.depositsEnabled }] :=
  congrArg (fun store : Store => store.queue.checkpoints) first.after_eq

theorem FirstPush.buildingIndex_after (first : FirstPush host env store after) :
    after.queue.buildingIndex = 0 :=
  (congrArg (fun store : Store => store.queue.buildingIndex) first.after_eq).trans
    first.buildingIndex_eq

theorem FirstPush.confirmedIndex_after (first : FirstPush host env store after) :
    after.queue.confirmedIndex = store.queue.confirmedIndex := by
  rw [first.after_eq]

theorem fillBuilding_eq_ok {config : CheckpointConfig} {sigset newSigset : SignatorySet}
    {advanced : Checkpoint.Advanced} {depositsEnabled : Bool} {feeRate : Nat}
    {filled : Checkpoint}
    (filledOk : fillBuilding host config sigset advanced
      { Checkpoint.new newSigset with depositsEnabled, feeRate } = .ok filled) :
    ∃ input excess, Input.new host advanced.reserveOutpoint sigset [0] advanced.reserveValue
        config.sigsetThreshold = .ok input ∧
      excess.map Input.unsigned = advanced.excessInputs.map Input.unsigned ∧
      (∀ input ∈ excess, ∃ shares, ThresholdSig.fromShares shares = .ok input.signatures) ∧
      excess.map (fun input => input.signatures.sigs) =
        advanced.excessInputs.map (fun input => input.signatures.sigs) ∧
      filled = Checkpoint.started newSigset depositsEnabled feeRate (input :: excess)
        advanced.excessOutputs := by
  have firstTx : Checkpoint.firstTx { Checkpoint.new newSigset with depositsEnabled, feeRate } =
      .ok BitcoinTx.default := rfl
  simp only [fillBuilding, Outcome.bind_eq_ok, Outcome.mapM_eq_ok, Outcome.pure_eq_ok] at filledOk
  obtain ⟨tx, first, input, made, excess, eachUnsigned, rfl⟩ := filledOk
  obtain rfl := Except.ok.inj (firstTx.symm.trans first)
  have excessOk : excess.map Input.unsigned = advanced.excessInputs.map Input.unsigned ∧
      (∀ input ∈ excess, ∃ shares, ThresholdSig.fromShares shares = .ok input.signatures) ∧
      excess.map (fun input => input.signatures.sigs) =
        advanced.excessInputs.map fun input => input.signatures.sigs := by
    generalize advanced.excessInputs = excessInputs at eachUnsigned ⊢
    induction eachUnsigned with
    | nil => simp
    | cons head rest ih =>
        obtain ⟨signatures, started, rfl⟩ := head
        rw [List.map_cons, List.map_cons, ih.1, List.map_cons, List.map_cons, ih.2.2,
          ThresholdSig.fromShares_sigs started]
        exact ⟨rfl, List.forall_mem_cons.mpr ⟨⟨_, started⟩, ih.2.1⟩, rfl⟩
  exact ⟨input, excess, made, excessOk.1, excessOk.2.1, excessOk.2.2, rfl⟩

/-- The queue with a new checkpoint at its end and without the outdated ones at
its front. -/
structure Grown (host : Host) (env : Env) (commitment : Bytes) (depositsEnabled : Bool)
    (store : Store) (queue : QueueStore) where
  ready : Ready host env store
  index : Nat
  next : store.nextIndex = .ok index
  sigset : SignatorySet
  sigset_eq : store.signatorySet host env.seconds index = .ok sigset
  pruned : Nat
  pruned_le : pruned = 0 ∨ pruned + 10 ≤ store.queue.checkpoints.length + 1
  outdated : QueueStore.Outdated
    (store.queue.checkpoints ++ [{ Checkpoint.new sigset with depositsEnabled }])
    env.seconds store.checkpointConfig.maxAge pruned
  fits : index + 1 < 2 ^ 32
  length_le : store.queue.checkpoints.length ≤ index
  fees_eq : stepFees host env store depositsEnabled commitment =
    queue.calcFeeCheckpoint host store.checkpointConfig (queue.buildingIndex - 1) commitment
  queue_eq : queue = { store.queue with
    head := store.queue.head + pruned
    buildingIndex := index
    checkpoints := (store.queue.checkpoints ++
      [{ Checkpoint.new sigset with depositsEnabled }]).drop pruned }

/-- What a step does with the grown queue. -/
def stepGrown (host : Host) (store : Store) (queue : QueueStore) (btcHeight : Nat)
    (timestampingCommitment : Bytes) (parentConfig : BitcoinConfig) :
    ContractResult (Store × Bool) := do
  let config := store.checkpointConfig
  if queue.buildingIndex = 0 then return ({ store with queue }, true)
  let prevIndex := queue.buildingIndex - 1
  let cpFees ← queue.calcFeeCheckpoint host config prevIndex timestampingCommitment
  let prev ← queue.get prevIndex
  let (frozen, advanced) ← prev.advance host timestampingCommitment cpFees config
  let queue ← queue.set prevIndex frozen
  let feeUnits ← Outcome.checkedMul 64 advanced.feesPaid parentConfig.unitsPerSat
  let feePool ← checkedI64 (store.feePool - asI64 feeUnits)
  let feeRate ← nextFeeRate queue config prev.feeRate btcHeight
  let building ← queue.building
  let building ← fillBuilding host config prev.sigset advanced { building with feeRate }
  let queue ← queue.set queue.buildingIndex building
  return ({ store with queue, feePool }, true)

/-- A step that does anything continues with the grown queue. -/
theorem grown_of_maybeStep {shouldAllowDeposits pushed : Bool} {parentConfig : BitcoinConfig}
    (stepped : store.maybeStep host env btcHeight shouldAllowDeposits commitment parentConfig =
      .ok (after, pushed)) :
    (after = store ∧ pushed = false) ∨
      ∃ queue, Nonempty (Grown host env commitment shouldAllowDeposits store queue) ∧
        stepGrown host store queue btcHeight commitment parentConfig = .ok (after, pushed) := by
  simp only [maybeStep, Outcome.bind_eq_ok] at stepped
  obtain ⟨should, shouldOk, stepped⟩ := stepped
  split at stepped
  · simp only [Outcome.pure_eq_ok, Prod.mk.injEq] at stepped
    exact Or.inl ⟨stepped.1.symm, stepped.2.symm⟩
  · rename_i shouldTrue
    obtain rfl : should = true := by simpa using shouldTrue
    have ready := ready_of_shouldPush shouldOk
    simp only [Outcome.bind_eq_ok] at stepped
    obtain ⟨⟨pushedStore, pushedCp⟩, push, stepped⟩ := stepped
    obtain ⟨index, sigset, next, built, isSome, pushAligned, rfl⟩ := maybePush_eq_ok ready push
    rw [if_neg (by simp [Option.isNone_iff_eq_none, Option.isSome_iff_ne_none.mp isSome])] at stepped
    simp only [Outcome.bind_eq_ok] at stepped
    obtain ⟨queue, pruneOk, stepped⟩ := stepped
    have feesEq : stepFees host env store shouldAllowDeposits commitment =
        queue.calcFeeCheckpoint host store.checkpointConfig (queue.buildingIndex - 1)
          commitment := by
      rw [stepFees, push, Outcome.ok_bind]
      dsimp only
      rw [pruneOk, Outcome.ok_bind]
    obtain ⟨count, rfl, enough, outdated⟩ := QueueStore.prune_eq_ok rfl pruneOk
    have latest : Checkpoint.createTime
        { Checkpoint.new sigset with depositsEnabled := shouldAllowDeposits } = env.seconds :=
      (SignatorySet.fromValidatorCtx_index built).1
    rw [latest] at outdated
    have pushEnough : (store.queue.checkpoints ++
        [{ Checkpoint.new sigset with depositsEnabled := shouldAllowDeposits }]).length ≤
          index + 1 := pushAligned.window
    rw [List.length_append, List.length_singleton] at pushEnough enough
    refine Or.inr ⟨_, ⟨{
      ready, index, next, sigset
      sigset_eq := built
      pruned := count
      pruned_le := enough
      outdated
      fits := pushAligned.fits
      length_le := Nat.le_of_succ_le_succ pushEnough
      fees_eq := feesEq
      queue_eq := rfl }⟩, ?_⟩
    exact stepped

namespace Grown

variable {depositsEnabled pushed : Bool} {queue : QueueStore} {config : BitcoinConfig}
  (grown : Grown host env commitment depositsEnabled store queue)

include grown in
/-- The first checkpoint is left as it was pushed. -/
theorem firstPush (empty : store.queue.checkpoints = [])
    (stepped : stepGrown host store queue btcHeight commitment config = .ok (after, pushed)) :
    Nonempty (FirstPush host env store after) := by
  obtain ⟨_, index, next, sigset, built, pruned, few, _, _, _, _, rfl⟩ := grown
  rw [nextIndex, if_pos empty] at next
  obtain rfl := Except.ok.inj next
  obtain rfl : pruned = 0 := by
    simp only [empty, List.length_nil] at few
    omega
  unfold stepGrown at stepped
  split at stepped
  · rename_i isZero
    simp only [Outcome.pure_eq_ok, Prod.mk.injEq] at stepped
    obtain ⟨rfl, -⟩ := stepped
    have zeroEq : store.queue.buildingIndex = 0 := isZero
    rw [zeroEq] at built
    exact ⟨empty, zeroEq, sigset, built, depositsEnabled, by simp [empty, zeroEq]⟩
  · rename_i notZero
    simp only [Outcome.bind_eq_ok] at stepped
    obtain ⟨cpFees, -, prev, got, -⟩ := stepped
    have found := Window.first_le_of_item (QueueStore.get_eq_ok.mp got).2
    simp only [QueueStore.window, Window.first, empty, List.nil_append, List.drop_zero,
      List.length_singleton] at found notZero
    omega

include grown in
/-- A further checkpoint takes over from the one that was under construction. -/
theorem rollover {older : List Checkpoint} {building : Checkpoint}
    (split : store.queue.checkpoints = older ++ [building])
    (stepped : stepGrown host store queue btcHeight commitment config = .ok (after, pushed)) :
    ∃ rollover : Rollover host env commitment config.unitsPerSat store after,
      rollover.depositsEnabled = depositsEnabled := by
  obtain ⟨ready, index, next, sigset, built, pruned, few, outdated, fits, lengthLe, feesEq, rfl⟩ :=
    grown
  have nonempty : store.queue.checkpoints ≠ [] := by simp [split]
  rw [nextIndex, if_neg nonempty, Outcome.checkedAdd_eq_ok] at next
  obtain ⟨-, rfl⟩ := next
  rw [split, List.length_append, List.length_singleton] at few
  have prunedEq (newest : Checkpoint) : (store.queue.checkpoints ++ [newest]).drop pruned =
      older.drop pruned ++ [building, newest] := by
    rw [split, List.append_assoc, List.drop_append_of_le_length (by omega)]
    rfl
  rw [prunedEq] at stepped feesEq
  unfold stepGrown at stepped
  rw [if_neg (Nat.succ_ne_zero _)] at stepped
  simp only [Outcome.bind_eq_ok, Outcome.checkedMul_eq_ok, checkedI64_eq_ok,
    Outcome.pure_eq_ok, Prod.mk.injEq] at stepped
  obtain ⟨cpFees, charged, prev, got, ⟨frozen, advanced⟩, advancedOk, frozenQueue, wroteFrozen,
    feeUnits, ⟨feeUnitsLt, rfl⟩, feePool, ⟨-, rfl⟩, feeRate, -, newest, readNewest, filled,
    filledOk, lastQueue, wroteFilled, rfl, -⟩ := stepped
  -- The checkpoint that was under construction is frozen.
  obtain ⟨prunedAligned, item⟩ := QueueStore.get_eq_ok.mp got
  obtain rfl := Option.some.inj
    (item.symm.trans (Window.item_before_last prunedAligned.window rfl))
  obtain ⟨outs, frozenTx, outsOk, first, frozenOk, rfl, handedOver⟩ :=
    Checkpoint.advance_eq_ok advancedOk
  obtain ⟨-, -, -, putFrozen⟩ := QueueStore.set_eq_ok.mp wroteFrozen
  have frozenQueueEq := putFrozen.symm.trans (QueueStore.put_eq
    (Window.put_before_last prunedAligned.window rfl (prev.frozenAs frozenTx)))
  subst frozenQueueEq
  -- The new checkpoint receives what did not fit into it.
  have newestSplit : older.drop pruned ++ [prev.frozenAs frozenTx,
      { Checkpoint.new sigset with depositsEnabled }] =
        (older.drop pruned ++ [prev.frozenAs frozenTx]) ++
          [{ Checkpoint.new sigset with depositsEnabled }] := by simp
  obtain ⟨-, others, readSplit⟩ := QueueStore.building_eq_ok.mp readNewest
  obtain ⟨-, last⟩ := List.append_inj' (newestSplit.symm.trans readSplit) rfl
  obtain rfl := (List.cons.inj last).1
  obtain ⟨input, excess, inputOk, excessEq, excessFresh, excessSigs, rfl⟩ :=
    fillBuilding_eq_ok filledOk
  obtain rfl := QueueStore.set_building newestSplit wroteFilled
  have feesPaidEq : advanced.feesPaid = cpFees := by rw [handedOver]
  have excessOutputsEq : advanced.excessOutputs =
      ((outs ++ prev.mainTx.output).drop store.checkpointConfig.maxOutputs).reverse := by
    rw [handedOver]
  rw [handedOver] at inputOk excessEq excessSigs
  obtain ⟨vsize, estimated, baseFeeLe⟩ := QueueStore.baseFee_le_calcFeeCheckpoint got charged
  rw [feesPaidEq] at feeUnitsLt
  exact ⟨{
    older
    building := prev
    checkpoints_eq := split
    aligned := ⟨by omega, lengthLe⟩
    fits
    ready
    sigset
    sigset_eq := built
    pruned
    pruned_le := few
    outdated := by
      intro position checkpoint dropped found
      have inRange := (List.getElem?_eq_some_iff.mp found).1
      have old := outdated position checkpoint dropped (by
        rw [split, List.append_assoc, List.getElem?_append_left inRange, found])
      simpa [split] using old
    depositsEnabled
    cpFees
    cpFees_eq := feesEq.trans charged
    vsize
    vsize_eq := estimated
    baseFee_le := baseFeeLe
    feeUnits_lt := feeUnitsLt
    outs
    outs_eq := outsOk
    firstTx_eq := first
    frozenTx
    reserveValue := advanced.reserveValue
    frozen_eq := frozenOk
    reserveInput := input
    reserveInput_eq := inputOk
    excess
    excess_eq := excessEq
    excess_fresh := excessFresh
    excess_sigs := excessSigs
    feeRate
    after_eq := by rw [feesPaidEq, excessOutputsEq, List.append_assoc]; rfl }, rfl⟩

end Grown

/-- A step of the queue does nothing, pushes the first checkpoint or starts a
further one. -/
theorem maybeStep_eq_ok {shouldAllowDeposits pushed : Bool} {parentConfig : BitcoinConfig}
    (stepped : store.maybeStep host env btcHeight shouldAllowDeposits commitment parentConfig =
      .ok (after, pushed)) :
    (after = store ∧ pushed = false) ∨ Nonempty (FirstPush host env store after) ∨
      ∃ rollover : Rollover host env commitment parentConfig.unitsPerSat store after,
        rollover.depositsEnabled = shouldAllowDeposits := by
  rcases grown_of_maybeStep stepped with same | ⟨queue, ⟨grown⟩, continued⟩
  · exact Or.inl same
  · right
    rcases List.eq_nil_or_concat store.queue.checkpoints with empty | ⟨older, building, split⟩
    · exact Or.inl (grown.firstPush empty continued)
    · rw [List.concat_eq_append] at split
      exact Or.inr (grown.rollover split continued)

/-- Nothing happens in a step that does not push. -/
theorem eq_of_maybeStep {deque : DequeSet} {shouldAllowDeposits pushed : Bool}
    {parentConfig : BitcoinConfig}
    (idle : store.shouldPush host env commitment btcHeight ≠ .ok true)
    (stepped : store.maybeStep host env btcHeight shouldAllowDeposits commitment parentConfig
      deque = .ok (after, pushed)) : after = store := by
  simp only [maybeStep, Outcome.bind_eq_ok] at stepped
  obtain ⟨should, shouldOk, stepped⟩ := stepped
  cases should with
  | true => exact absurd shouldOk idle
  | false =>
      simp only [if_true, Outcome.pure_eq_ok, Prod.mk.injEq] at stepped
      exact stepped.1.symm

/-- Nothing is pushed unless the conditions for it hold. -/
theorem Rollover.shouldPush_of_maybeStep {unitsPerSat : Nat} {shouldAllowDeposits pushed : Bool}
    {parentConfig : BitcoinConfig} (rollover : Rollover host env commitment unitsPerSat store after)
    (stepped : store.maybeStep host env btcHeight shouldAllowDeposits commitment parentConfig =
      .ok (after, pushed)) :
    store.shouldPush host env commitment btcHeight = .ok true := by
  by_contra idle
  have advanced := rollover.buildingIndex_after
  rw [eq_of_maybeStep idle stepped] at advanced
  exact Nat.succ_ne_self _ advanced.symm

end Store

end CwBitcoin
