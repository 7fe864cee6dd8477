import CwBitcoin.ContractSteps
import CwBitcoin.RedeemScript

/-!
# The shape of the checkpoint queue

In every state that calls of the contract can reach, the last checkpoint is
under construction, the one before it may wait for signatures, and all others
are complete.  Every checkpoint carries the index under which the queue returns
it.
-/

namespace CwBitcoin

namespace QueueStore

/-- The shape of a queue with checkpoints, index by index. -/
structure Ordered (queue : QueueStore) : Prop where
  aligned : queue.Aligned
  nonempty : queue.checkpoints ≠ []
  single : ∀ {index checkpoint}, queue.window.item index = some checkpoint → checkpoint.Single
  indexed : ∀ {index checkpoint}, queue.window.item index = some checkpoint →
    checkpoint.sigset.index = index
  wellFormed : ∀ {index checkpoint}, queue.window.item index = some checkpoint →
    checkpoint.sigset.WellFormed
  last : ∀ {checkpoint}, queue.window.item queue.buildingIndex = some checkpoint →
    checkpoint.status = .building
  frozen : ∀ {index checkpoint}, queue.window.item index = some checkpoint →
    index < queue.buildingIndex → checkpoint.status ≠ .building
  complete : ∀ {index checkpoint}, queue.window.item index = some checkpoint →
    index + 1 < queue.buildingIndex → checkpoint.status = .complete
  times : ∀ {index later first second}, index ≤ later →
    queue.window.item index = some first → queue.window.item later = some second →
    first.createTime ≤ second.createTime

/-- A queue that calls of the contract can reach. -/
inductive Shaped (queue : QueueStore) : Prop
  | empty (checkpoints_eq : queue.checkpoints = []) (buildingIndex_eq : queue.buildingIndex = 0)
  | ordered (ordered : queue.Ordered)

section Put

variable {queue : QueueStore} {index : Nat} {checkpoint replacement : Checkpoint}
  {older : List Checkpoint}

/-- A checkpoint may be replaced by one with the same signatory set, and be
completed once it is frozen. -/
theorem Ordered.put (ordered : queue.Ordered)
    (found : queue.window.item index = some checkpoint) (single : replacement.Single)
    (sigset_eq : replacement.sigset = checkpoint.sigset)
    (status : replacement.status = checkpoint.status ∨
      (checkpoint.status ≠ .building ∧ replacement.status = .complete)) :
    (queue.put index replacement).Ordered := by
  have item := Window.item_put found replacement
  have inherit {other : Nat} {current : Checkpoint}
      (currentAt : (queue.put index replacement).window.item other = some current) :
      ∃ previous, queue.window.item other = some previous ∧
        current.sigset = previous.sigset ∧ (previous.Single → current.Single) ∧
        (current.status = previous.status ∨
          (previous.status ≠ .building ∧ current.status = .complete)) := by
    rw [window_put, item] at currentAt
    split at currentAt
    · rename_i same
      obtain rfl := Option.some.inj currentAt
      exact ⟨checkpoint, by rw [same]; exact found, sigset_eq, fun _ => single, status⟩
    · exact ⟨current, currentAt, rfl, id, Or.inl rfl⟩
  refine ⟨ordered.aligned.put, ?_, ?_, ?_, ?_, ?_, ?_, ?_, ?_⟩
  · have nonempty := ordered.nonempty
    simpa [QueueStore.put, Window.put, QueueStore.window] using nonempty
  · intro other current currentAt
    obtain ⟨previous, previousAt, -, keepsSingle, -⟩ := inherit currentAt
    exact keepsSingle (ordered.single previousAt)
  · intro other current currentAt
    obtain ⟨previous, previousAt, sameSigset, -, -⟩ := inherit currentAt
    rw [sameSigset]
    exact ordered.indexed previousAt
  · intro other current currentAt
    obtain ⟨previous, previousAt, sameSigset, -, -⟩ := inherit currentAt
    rw [sameSigset]
    exact ordered.wellFormed previousAt
  · intro current currentAt
    obtain ⟨previous, previousAt, -, -, sameStatus | ⟨notBuilding, -⟩⟩ := inherit currentAt
    · rw [sameStatus]
      exact ordered.last previousAt
    · exact absurd (ordered.last previousAt) notBuilding
  · intro other current currentAt before
    obtain ⟨previous, previousAt, -, -, sameStatus | ⟨-, isComplete⟩⟩ := inherit currentAt
    · rw [sameStatus]
      exact ordered.frozen previousAt before
    · simp [isComplete]
  · intro other current currentAt before
    obtain ⟨previous, previousAt, -, -, sameStatus | ⟨-, isComplete⟩⟩ := inherit currentAt
    · rw [sameStatus]
      exact ordered.complete previousAt before
    · exact isComplete
  · intro first second firstCp secondCp order firstAt secondAt
    obtain ⟨firstOld, firstOldAt, firstSigset, -, -⟩ := inherit firstAt
    obtain ⟨secondOld, secondOldAt, secondSigset, -, -⟩ := inherit secondAt
    have oldOrder := ordered.times order firstOldAt secondOldAt
    rwa [Checkpoint.createTime, Checkpoint.createTime, firstSigset, secondSigset]

theorem Shaped.ordered_of_item (shaped : queue.Shaped)
    (found : queue.window.item index = some checkpoint) : queue.Ordered := by
  cases shaped with
  | empty checkpoints_eq buildingIndex_eq =>
      exact absurd found (Window.item_ne_of_empty checkpoints_eq)
  | ordered ordered => exact ordered

theorem Shaped.ordered_of_split (shaped : queue.Shaped)
    (split : queue.checkpoints = older ++ [checkpoint]) : queue.Ordered := by
  cases shaped with
  | empty checkpoints_eq buildingIndex_eq => simp [checkpoints_eq] at split
  | ordered ordered => exact ordered

theorem Ordered.item_building (ordered : queue.Ordered)
    (split : queue.checkpoints = older ++ [checkpoint]) :
    queue.window.item queue.buildingIndex = some checkpoint :=
  Window.item_last ordered.aligned.window split

/-- The checkpoint under construction may change, except for its signatory set. -/
theorem Shaped.replaceBuilding (shaped : queue.Shaped)
    (split : queue.checkpoints = older ++ [checkpoint])
    (single : checkpoint.Single → replacement.Single)
    (sigset_eq : replacement.sigset = checkpoint.sigset)
    (status_eq : replacement.status = checkpoint.status) :
    Shaped { queue with checkpoints := older ++ [replacement] } := by
  have ordered := shaped.ordered_of_split split
  have found := ordered.item_building split
  have replaced := ordered.put found (single (ordered.single found)) sigset_eq (Or.inl status_eq)
  rw [put_building ordered.aligned split] at replaced
  exact .ordered replaced

theorem Shaped.withFirstUnhandled (shaped : queue.Shaped) (firstUnhandled : Nat) :
    Shaped { queue with firstUnhandledConfirmedIndex := firstUnhandled } := by
  cases shaped with
  | empty checkpoints_eq buildingIndex_eq => exact .empty checkpoints_eq buildingIndex_eq
  | ordered ordered => exact .ordered { ordered with aligned := ⟨ordered.aligned.1, ordered.aligned.2⟩ }

theorem Shaped.withConfirmed (shaped : queue.Shaped) (confirmedIndex : Option Nat) :
    Shaped { queue with confirmedIndex } := by
  cases shaped with
  | empty checkpoints_eq buildingIndex_eq => exact .empty checkpoints_eq buildingIndex_eq
  | ordered ordered => exact .ordered { ordered with aligned := ⟨ordered.aligned.1, ordered.aligned.2⟩ }

end Put

theorem Shaped.clearPending {queue : QueueStore} {index : Nat} {checkpoint : Checkpoint}
    (shaped : queue.Shaped) (got : queue.get index = .ok checkpoint) :
    Shaped (queue.put index { checkpoint with pending := [] }) := by
  obtain ⟨-, found⟩ := get_eq_ok.mp got
  have ordered := shaped.ordered_of_item found
  have single : checkpoint.Single := ordered.single found
  exact .ordered (ordered.put found single rfl (Or.inl rfl))

theorem Shaped.takePending {queue after : QueueStore} {indexes : List Nat} {dests : Payouts}
    (shaped : queue.Shaped) (taken : queue.takePending indexes = .ok (after, dests)) :
    after.Shaped :=
  takePending_invariant Shaped (fun _ _ _ holds got => holds.clearPending got) shaped taken

theorem Shaped.takePendingCompleted {queue after : QueueStore} {dests : Payouts}
    (shaped : queue.Shaped) (taken : queue.takePendingCompleted = .ok (after, dests)) :
    after.Shaped :=
  takePendingCompleted_invariant Shaped (fun _ _ _ holds got => holds.clearPending got)
    (fun _ next holds => holds.withFirstUnhandled next) shaped taken

theorem Shaped.sign {host : Host} {queue after : QueueStore} {xpub : Xpub} {sigs : List Signature}
    {index btcHeight : Nat} (shaped : queue.Shaped)
    (signed : queue.sign host xpub sigs index btcHeight = .ok after) : after.Shaped := by
  obtain ⟨checkpoint, signedCheckpoint, got, notBuilding, sameTxs, sameFields, status, rfl⟩ :=
    sign_eq_ok signed
  obtain ⟨-, found⟩ := get_eq_ok.mp got
  have ordered := shaped.ordered_of_item found
  refine .ordered (ordered.put found ((ordered.single found).congr sameTxs) ?_ ?_)
  · rw [sameFields]
  · exact status.imp_right fun isComplete => ⟨notBuilding, isComplete⟩

end QueueStore

namespace QueueStore

variable {queue : QueueStore}

theorem Ordered.not_signing (noSigning : queue.signing = .ok none) {index : Nat}
    {checkpoint : Checkpoint} (found : queue.window.item index = some checkpoint)
    (before : index + 1 = queue.buildingIndex) : checkpoint.status ≠ .signing := by
  rcases signing_eq_ok noSigning with ⟨short, -⟩ | ⟨second, -, -, secondAt, none_eq⟩
  · have lower := Window.first_le_of_item found
    simp only [Window.first, QueueStore.window] at lower
    omega
  · obtain rfl : index = queue.buildingIndex - 1 := by omega
    obtain rfl := Option.some.inj (found.symm.trans secondAt)
    intro isSigning
    simp [isSigning] at none_eq

end QueueStore

namespace Store

variable {host : Host} {env : Env} {store after : Store} {commitment : Bytes} {unitsPerSat : Nat}

/-- A further checkpoint is started with the next index, at a later time, and
the previous one starts to be signed. -/
theorem Rollover.ordered (rollover : Rollover host env commitment unitsPerSat store after)
    (ordered : store.queue.Ordered) : after.queue.Ordered := by
  obtain ⟨sigsetTime, sigsetIndex⟩ := SignatorySet.fromValidatorCtx_index rollover.sigset_eq
  have buildingAt := rollover.item_building
  have buildingTime : rollover.building.createTime ≤ env.seconds := by
    apply rollover.ready.time_le
    rw [rollover.checkpoints_eq, List.getLast?_concat]
  have newest {index : Nat} {checkpoint : Checkpoint}
      (found : after.queue.window.item index = some checkpoint) :
      checkpoint.createTime ≤ env.seconds ∧
        (index ≤ store.queue.buildingIndex → ∃ old, store.queue.window.item index = some old ∧
          checkpoint.createTime = old.createTime) := by
    rcases rollover.item_after_cases found with ⟨rfl, rfl⟩ | ⟨rfl, rfl⟩ | ⟨before, oldAt⟩
    · exact ⟨sigsetTime.le, fun upper => by omega⟩
    · exact ⟨buildingTime, fun _ => ⟨_, buildingAt, rfl⟩⟩
    · have oldTime := ordered.times before.le oldAt buildingAt
      exact ⟨oldTime.trans buildingTime, fun _ => ⟨_, oldAt, rfl⟩⟩
  refine ⟨rollover.aligned_after, ?_, ?_, ?_, ?_, ?_, ?_, ?_, ?_⟩
  · simp [rollover.checkpoints_after]
  · intro index checkpoint found
    rcases rollover.item_after_cases found with ⟨-, rfl⟩ | ⟨-, rfl⟩ | ⟨-, oldAt⟩
    · exact ⟨0, _, rfl⟩
    · exact (ordered.single buildingAt).setFirstTx _
    · exact ordered.single oldAt
  · intro index checkpoint found
    rcases rollover.item_after_cases found with ⟨rfl, rfl⟩ | ⟨rfl, rfl⟩ | ⟨-, oldAt⟩
    · exact sigsetIndex
    · have buildingIndexed : rollover.building.sigset.index = _ := ordered.indexed buildingAt
      exact buildingIndexed
    · exact ordered.indexed oldAt
  · intro index checkpoint found
    rcases rollover.item_after_cases found with ⟨-, rfl⟩ | ⟨-, rfl⟩ | ⟨-, oldAt⟩
    · exact SignatorySet.fromValidatorCtx_wellFormed rollover.sigset_eq
    · have buildingSet : rollover.building.sigset.WellFormed := ordered.wellFormed buildingAt
      exact buildingSet
    · exact ordered.wellFormed oldAt
  · intro checkpoint found
    rw [rollover.buildingIndex_after] at found
    rcases rollover.item_after_cases found with ⟨-, rfl⟩ | ⟨impossible, -⟩ | ⟨impossible, -⟩
    · rfl
    · omega
    · omega
  · intro index checkpoint found before
    rw [rollover.buildingIndex_after] at before
    rcases rollover.item_after_cases found with ⟨impossible, -⟩ | ⟨-, rfl⟩ | ⟨older, oldAt⟩
    · omega
    · exact CheckpointStatus.noConfusion
    · exact ordered.frozen oldAt older
  · intro index checkpoint found before
    rw [rollover.buildingIndex_after] at before
    rcases rollover.item_after_cases found with ⟨impossible, -⟩ | ⟨impossible, -⟩ | ⟨older, oldAt⟩
    · omega
    · omega
    · by_cases beforeLast : index + 1 < store.queue.buildingIndex
      · exact ordered.complete oldAt beforeLast
      · have notSigning := QueueStore.Ordered.not_signing rollover.ready.signing_eq oldAt (by omega)
        have notBuilding := ordered.frozen oldAt older
        cases status : checkpoint.status with
        | building => exact absurd status notBuilding
        | signing => exact absurd status notSigning
        | complete => rfl
  · intro index later first second order firstAt secondAt
    by_cases isLast : later ≤ store.queue.buildingIndex
    · obtain ⟨firstOld, firstOldAt, firstTime⟩ := (newest firstAt).2 (order.trans isLast)
      obtain ⟨secondOld, secondOldAt, secondTime⟩ := (newest secondAt).2 isLast
      rw [firstTime, secondTime]
      exact ordered.times order firstOldAt secondOldAt
    · rcases rollover.item_after_cases secondAt with ⟨-, rfl⟩ | ⟨same, -⟩ | ⟨before, -⟩
      · exact (newest firstAt).1.trans sigsetTime.ge
      · omega
      · omega

theorem FirstPush.ordered (first : FirstPush host env store after) : after.queue.Ordered := by
  obtain ⟨-, sigsetIndex⟩ := SignatorySet.fromValidatorCtx_index first.sigset_eq
  have queueEq : after.queue = { store.queue with
      checkpoints := [{ Checkpoint.new first.sigset with depositsEnabled := first.depositsEnabled }] } :=
    congrArg Store.queue first.after_eq
  have indexEq := first.buildingIndex_after
  have only {index : Nat} {checkpoint : Checkpoint}
      (found : after.queue.window.item index = some checkpoint) : index = 0 ∧
        checkpoint = { Checkpoint.new first.sigset with depositsEnabled := first.depositsEnabled } := by
    have aligned : after.queue.window.Aligned := by
      simp [Window.Aligned, QueueStore.window, queueEq]
    have upper : index ≤ after.queue.buildingIndex := Window.le_last_of_item aligned found
    have member : checkpoint ∈ after.queue.checkpoints := Window.mem_of_item found
    rw [queueEq, List.mem_singleton] at member
    exact ⟨by omega, member⟩
  refine ⟨⟨by omega, by simp [Window.Aligned, QueueStore.window, queueEq]⟩, by simp [queueEq],
    ?_, ?_, ?_, ?_, ?_, ?_, ?_⟩
  · intro index checkpoint found
    rw [(only found).2]
    exact Checkpoint.single_new first.sigset
  · intro index checkpoint found
    obtain ⟨rfl, rfl⟩ := only found
    exact sigsetIndex
  · intro index checkpoint found
    rw [(only found).2]
    exact SignatorySet.fromValidatorCtx_wellFormed first.sigset_eq
  · intro checkpoint found
    rw [(only found).2]
    rfl
  · intro index checkpoint found before
    omega
  · intro index checkpoint found before
    omega
  · intro index later older newer order olderAt newerAt
    rw [(only olderAt).2, (only newerAt).2]

theorem shaped_maybeStep {btcHeight : Nat} {shouldAllowDeposits pushed : Bool}
    {parentConfig : BitcoinConfig} (shaped : store.queue.Shaped)
    (stepped : store.maybeStep host env btcHeight shouldAllowDeposits commitment parentConfig =
      .ok (after, pushed)) : after.queue.Shaped := by
  rcases maybeStep_eq_ok stepped with ⟨rfl, -⟩ | ⟨⟨first⟩⟩ | ⟨rollover, -⟩
  · exact shaped
  · exact .ordered first.ordered
  · exact .ordered (rollover.ordered (shaped.ordered_of_split rollover.checkpoints_eq))

theorem shaped_creditDeposit {input : Input} {feeRate : Nat} {dest : Dest}
    (shaped : store.queue.Shaped)
    (credited : store.creditDeposit input feeRate dest = .ok after) : after.queue.Shaped := by
  obtain ⟨older, building, fee, coin, split, -, -, -, -, rfl⟩ := creditDeposit_eq_ok credited
  exact shaped.replaceBuilding split (fun single => single.setFirstTx _) rfl rfl

theorem shaped_relayDeposit {btcTx : Transaction} {btcHeight btcVout sigsetIndex : Nat}
    {btcProof : PartialMerkleTree} {dest : Dest} (shaped : store.queue.Shaped)
    (relayed : store.relayDeposit host env btcTx btcHeight btcProof btcVout sigsetIndex dest =
      .ok after) : after.queue.Shaped := by
  obtain ⟨_, _, _, timeout, -, -, -, -, -, ⟨recoveryTxs, rfl⟩ | ⟨input, -, credited⟩⟩ :=
    relayDeposit_eq_ok relayed
  · exact shaped
  · have inserted : (store.insertOutpoint ⟨btcTx.txid host, btcVout⟩ timeout).queue.Shaped := shaped
    exact shaped_creditDeposit inserted credited

theorem shaped_addWithdrawal {scriptPubkey : Script} {amount : Nat} (shaped : store.queue.Shaped)
    (added : store.addWithdrawal host scriptPubkey amount = .ok after) : after.queue.Shaped := by
  obtain ⟨older, building, fee, split, -, -, -, -, -, rfl⟩ := addWithdrawal_eq_ok added
  exact shaped.replaceBuilding split (fun single => single.setFirstTx _) rfl rfl

end Store

namespace Contract

theorem Effect.shaped {host : Host} {store after : Store} {call : Call} (effect : Effect host store call after)
    (shaped : store.queue.Shaped) : after.queue.Shaped := by
  cases effect with
  | deposit _ _ _ _ _ _ _ _ _ relayed => exact Store.shaped_relayDeposit shaped relayed
  | withdrawal _ _ scriptPubkey denom funds added =>
      exact addWithdrawals_invariant (fun store => store.queue.Shaped)
        (fun _ _ _ holds added => Store.shaped_addWithdrawal holds added) shaped added
  | signature _ _ _ _ _ _ signed => exact shaped.sign signed
  | confirmation _ _ _ _ _ relayed =>
      obtain ⟨-, -, rfl⟩ := Store.relayCheckpoint_eq_ok relayed
      exact shaped.withConfirmed _
  | configuration => exact shaped
  | endBlock _ _ env dests taken _ _ _ stepped same =>
      rw [same.queue_eq]
      exact Store.shaped_maybeStep (shaped.takePendingCompleted taken) stepped
  | other _ _ same =>
      rw [same.queue_eq]
      exact shaped

/-- Every run keeps the shape of the queue. -/
theorem shaped_run {start : Store} (shaped : start.queue.Shaped) (calls : List Call) :
    ((machine host).run start calls).queue.Shaped :=
  CallMachine.run_invariant_all (fun store : Store => store.queue.Shaped)
    (fun _ _ _ shaped called => (effect_of_call called).shaped shaped) shaped calls

theorem run_shaped (host : Host) (info : MessageInfo) (msg : InstantiateMsg) (calls : List Call) :
    ((machine host).run (instantiate host info msg) calls).queue.Shaped :=
  shaped_run (.empty rfl rfl) calls

end Contract

namespace QueueStore

/-- The shape of a queue with checkpoints as its readers see it. -/
structure InOrder (queue : QueueStore) : Prop where
  statuses : ∃ completed signing building, queue.checkpoints = completed ++ signing ++ [building] ∧
    (∀ checkpoint ∈ completed, checkpoint.status = .complete) ∧
    signing.length ≤ 1 ∧ (∀ checkpoint ∈ signing, checkpoint.status = .signing) ∧
    building.status = .building ∧ queue.get queue.buildingIndex = .ok building
  length_le : queue.checkpoints.length ≤ queue.buildingIndex + 1
  indexed : ∀ index, queue.buildingIndex + 1 - queue.checkpoints.length ≤ index →
    index ≤ queue.buildingIndex →
      ∃ checkpoint, queue.get index = .ok checkpoint ∧ checkpoint.sigset.index = index
  times : queue.checkpoints.Pairwise fun older newer => older.createTime ≤ newer.createTime

variable {queue : QueueStore}

theorem Ordered.length_eq (ordered : queue.Ordered) :
    queue.window.first + queue.checkpoints.length = queue.buildingIndex + 1 := by
  have enough : queue.checkpoints.length ≤ queue.buildingIndex + 1 := ordered.aligned.window
  simp only [Window.first, QueueStore.window]
  omega

theorem Ordered.statuses (ordered : queue.Ordered) {older : List Checkpoint}
    {building : Checkpoint} (split : queue.checkpoints = older ++ [building]) :
    ∃ completed signing, older = completed ++ signing ∧
      (∀ checkpoint ∈ completed, checkpoint.status = .complete) ∧
      signing.length ≤ 1 ∧ ∀ checkpoint ∈ signing, checkpoint.status = .signing := by
  have lengthEq := ordered.length_eq
  rw [split, List.length_append, List.length_singleton] at lengthEq
  have itemOf {position : Nat} {checkpoint : Checkpoint} (found : older[position]? = some checkpoint) :
      queue.window.item (queue.window.first + position) = some checkpoint := by
    have inRange := (List.getElem?_eq_some_iff.mp found).1
    rw [Window.item_add]
    change queue.checkpoints[position]? = some checkpoint
    rw [split, List.getElem?_append_left inRange, found]
  rcases List.eq_nil_or_concat older with rfl | ⟨completed, second, rfl⟩
  · exact ⟨[], [], rfl, by simp, by simp, by simp⟩
  · rw [List.concat_eq_append] at lengthEq itemOf ⊢
    rw [List.length_append, List.length_singleton] at lengthEq
    have secondAt : queue.window.item (queue.window.first + completed.length) = some second :=
      itemOf (by simp)
    have allComplete : ∀ checkpoint ∈ completed, checkpoint.status = .complete := by
      intro checkpoint member
      obtain ⟨position, found⟩ := List.getElem?_of_mem member
      have inRange := (List.getElem?_eq_some_iff.mp found).1
      exact ordered.complete (itemOf (by rw [List.getElem?_append_left inRange, found])) (by omega)
    cases status : second.status with
    | building => exact absurd status (ordered.frozen secondAt (by omega))
    | signing => exact ⟨completed, [second], rfl, allComplete, by simp, by simpa using status⟩
    | complete =>
        refine ⟨completed ++ [second], [], by simp, ?_, by simp, by simp⟩
        intro checkpoint member
        rcases List.mem_append.mp member with older | isSecond
        · exact allComplete checkpoint older
        · rw [List.mem_singleton.mp isSecond, status]

theorem Ordered.inOrder (ordered : queue.Ordered) : queue.InOrder := by
  have lengthEq := ordered.length_eq
  obtain ⟨older, building, split⟩ :=
    (List.eq_nil_or_concat queue.checkpoints).resolve_left ordered.nonempty
  rw [List.concat_eq_append] at split
  have buildingAt := ordered.item_building split
  refine ⟨?_, ordered.aligned.window, ?_, ?_⟩
  · obtain ⟨completed, signing, rfl, complete, short, areSigning⟩ := ordered.statuses split
    exact ⟨completed, signing, building, split, complete, short, areSigning,
      ordered.last buildingAt, get_eq_ok.mpr ⟨ordered.aligned, buildingAt⟩⟩
  · intro index lower upper
    obtain ⟨checkpoint, found⟩ := Window.exists_item ordered.aligned.window lower upper
    exact ⟨checkpoint, get_eq_ok.mpr ⟨ordered.aligned, found⟩, ordered.indexed found⟩
  · rw [List.pairwise_iff_getElem]
    intro first second firstLt secondLt order
    refine ordered.times (Nat.add_le_add_left order.le queue.window.first) ?_ ?_
    · rw [Window.item_add]
      exact List.getElem?_eq_getElem firstLt
    · rw [Window.item_add]
      exact List.getElem?_eq_getElem secondLt

end QueueStore

/-- In every state of every run, the queue is empty with index zero, or its
checkpoints are complete except for at most one that is signed and the last
one, which is under construction and has the stored index. -/
theorem Contract.run_queue_inOrder (host : Host) (info : MessageInfo) (msg : InstantiateMsg)
    (calls : List Call) :
    (((machine host).run (instantiate host info msg) calls).queue.checkpoints = [] ∧
      ((machine host).run (instantiate host info msg) calls).queue.buildingIndex = 0) ∨
    ((machine host).run (instantiate host info msg) calls).queue.InOrder := by
  cases run_shaped host info msg calls with
  | empty checkpoints_eq buildingIndex_eq => exact Or.inl ⟨checkpoints_eq, buildingIndex_eq⟩
  | ordered ordered => exact Or.inr ordered.inOrder

end CwBitcoin
