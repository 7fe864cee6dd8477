import CwBitcoin.Confirmation

/-!
# Pruning and the confirmed checkpoint

Payouts and fees read the checkpoints from the confirmed one on.  Pruning looks
at their number and age only.  As long as it does not reach the confirmed
checkpoint, all of them are in the queue.
-/

namespace CwBitcoin

/-- What reading a checkpoint outside of the queue reports. -/
def outOfBounds : ContractError := .app "Index out of bounds"

section Fees

variable {reason : ContractError} {host : Host}

/-- No error of a third party is the given one. -/
def Host.DerAvoids (host : Host) (reason : ContractError) : Prop :=
  ∀ sig, Outcome.Avoids reason (host.compactToDer sig)

theorem BitcoinTx.avoids_toBitcoinTx (der : host.DerAvoids reason) (tx : BitcoinTx) :
    Outcome.Avoids reason (tx.toBitcoinTx host) := by
  apply Outcome.Avoids.bind
  · apply Outcome.avoids_mapM
    intro input _
    apply Outcome.Avoids.bind
    · unfold ThresholdSig.toWitness
      split
      · apply Outcome.avoids_mapM
        intro entry _
        unfold ThresholdSig.witnessElement
        split
        · simp
        · exact (der _).bind fun _ _ => by simp
      · simp
    · simp
  · simp

theorem SignatorySet.avoids_outputScript (sigset : SignatorySet) (dest : Bytes) (ratio : Nat × Nat) :
    Outcome.Avoids outOfBounds (sigset.outputScript host dest ratio) := by
  have threshold : Outcome.Avoids outOfBounds (sigset.signatureThreshold ratio) := by
    apply Outcome.Avoids.bind (by simp)
    intro product _
    apply Outcome.Avoids.bind (by simp)
    simp
  apply Outcome.Avoids.bind
  · unfold redeemScript
    split
    · simp [outOfBounds]
    · apply Outcome.Avoids.bind threshold
      intro value _
      apply Outcome.Avoids.bind (by simp)
      simp
  · simp

namespace Checkpoint

theorem avoids_firstTx (checkpoint : Checkpoint) : Outcome.Avoids reason checkpoint.firstTx := by
  apply Outcome.Avoids.bind (Outcome.avoids_getOr_abort _)
  simp

theorem avoids_checkpointTxMinerFees (checkpoint : Checkpoint) :
    Outcome.Avoids reason checkpoint.checkpointTxMinerFees := by
  apply Outcome.Avoids.bind checkpoint.avoids_firstTx
  intro tx _
  apply Outcome.Avoids.bind (by simp)
  intro fees _
  exact Outcome.avoids_foldlM _ _ fun _ _ _ => by simp

theorem avoids_estVsize (der : host.DerAvoids outOfBounds) (checkpoint : Checkpoint)
    (config : CheckpointConfig) (commitment : Bytes) :
    Outcome.Avoids outOfBounds (checkpoint.estVsize host config commitment) := by
  have additional : Outcome.Avoids outOfBounds
      (checkpoint.additionalOutputs host config commitment) := by
    apply Outcome.Avoids.bind (checkpoint.sigset.avoids_outputScript _ _)
    intro reserveScript _
    apply Outcome.Avoids.bind
    · apply Outcome.Avoids.bind (by simp)
      simp
    · simp
  apply Outcome.Avoids.bind checkpoint.avoids_firstTx
  intro checkpointTx _
  apply Outcome.Avoids.bind (BitcoinTx.avoids_toBitcoinTx der _)
  intro tx _
  apply Outcome.Avoids.bind additional
  intro outs _
  apply Outcome.Avoids.bind (by simp [BitcoinTx.witnessVsize])
  simp

end Checkpoint

end Fees

namespace QueueStore

/-- The confirmed checkpoint, or the first one when none is confirmed, has not
been pruned. -/
def KeepsConfirmed (queue : QueueStore) : Prop :=
  queue.checkpoints ≠ [] → queue.window.first ≤ queue.confirmedIndex.getD 0

variable {queue after : QueueStore} {index : Nat} {checkpoint : Checkpoint}

theorem Ordered.exists_get (ordered : queue.Ordered) (lower : queue.window.first ≤ index)
    (upper : index ≤ queue.buildingIndex) : ∃ checkpoint, queue.get index = .ok checkpoint := by
  obtain ⟨checkpoint, found⟩ := Window.exists_item ordered.aligned.window lower upper
  exact ⟨checkpoint, get_eq_ok.mpr ⟨ordered.aligned, found⟩⟩

/-- Pending transfers can be taken from checkpoints that are in the queue. -/
theorem Ordered.exists_takePending {indexes : List Nat} (ordered : queue.Ordered)
    (present : ∀ index ∈ indexes, queue.window.first ≤ index ∧ index ≤ queue.buildingIndex) :
    ∃ taken, queue.takePending indexes = .ok taken := by
  induction indexes generalizing queue with
  | nil => exact ⟨_, rfl⟩
  | cons index rest ih =>
      obtain ⟨lower, upper⟩ := present index List.mem_cons_self
      obtain ⟨checkpoint, got⟩ := ordered.exists_get lower upper
      obtain ⟨-, found⟩ := get_eq_ok.mp got
      have single : checkpoint.Single := ordered.single found
      have cleared : (queue.put index { checkpoint with pending := [] }).Ordered :=
        ordered.put found single rfl (Or.inl rfl)
      have wrote := set_eq_ok.mpr ⟨ordered.aligned, lower, upper,
        (rfl : queue.put index { checkpoint with pending := [] } = _)⟩
      obtain ⟨⟨last, dests⟩, taken⟩ := ih cleared fun other member => by
        rw [window_put, Window.first_put]
        exact present other (List.mem_cons_of_mem index member)
      refine ⟨(last, checkpoint.pending :: dests), ?_⟩
      simp only [takePending, Outcome.bind_eq_ok, Outcome.pure_eq_ok]
      exact ⟨checkpoint, got, _, wrote, _, taken, rfl⟩

theorem Ordered.exists_completeFrom (ordered : queue.Ordered) {indexes : List Nat}
    (present : ∀ index ∈ indexes, queue.window.first ≤ index ∧ index ≤ queue.buildingIndex) :
    ∃ found, queue.completeFrom indexes = .ok found := by
  induction indexes with
  | nil => exact ⟨_, rfl⟩
  | cons index rest ih =>
      obtain ⟨lower, upper⟩ := present index List.mem_cons_self
      obtain ⟨checkpoint, got⟩ := ordered.exists_get lower upper
      obtain ⟨others, read⟩ := ih fun other member => present other (List.mem_cons_of_mem index member)
      by_cases isComplete : checkpoint.status = .complete
      · refine ⟨(index, checkpoint) :: others, ?_⟩
        simp only [completeFrom, Outcome.bind_eq_ok]
        refine ⟨checkpoint, got, ?_⟩
        rw [if_pos isComplete]
        exact Outcome.bind_eq_ok.mpr ⟨others, read, rfl⟩
      · refine ⟨[], ?_⟩
        simp only [completeFrom, Outcome.bind_eq_ok]
        refine ⟨checkpoint, got, ?_⟩
        rw [if_neg isComplete]
        rfl

/-- Everything from the confirmed checkpoint to the last one can be read. -/
theorem KeepsConfirmed.exists_get (keeps : queue.KeepsConfirmed) (shaped : queue.Shaped)
    (nonempty : queue.checkpoints ≠ []) (lower : queue.confirmedIndex.getD 0 ≤ index)
    (upper : index ≤ queue.buildingIndex) : ∃ checkpoint, queue.get index = .ok checkpoint := by
  cases shaped with
  | empty checkpoints_eq => exact absurd checkpoints_eq nonempty
  | ordered ordered => exact ordered.exists_get ((keeps nonempty).trans lower) upper

/-- Reading a checkpoint succeeds or reports that it is not in the queue. -/
theorem Shaped.get_cases (shaped : queue.Shaped) (index : Nat) :
    (∃ checkpoint, queue.get index = .ok checkpoint) ∨
      queue.get index = .error (.error outOfBounds) := by
  have outside (fits : queue.buildingIndex + 1 < 2 ^ 32)
      (enough : queue.checkpoints.length ≤ queue.buildingIndex + 1)
      (notInside : ¬ (queue.window.first ≤ index ∧ index ≤ queue.buildingIndex)) :
      queue.get index = .error (.error outOfBounds) := by
    have firstEq : queue.window.first = queue.buildingIndex + 1 - queue.checkpoints.length := rfl
    have beyond : queue.buildingIndex < index ∨
        index < queue.buildingIndex + 1 - queue.checkpoints.length := by omega
    rw [get, getDequeIndex, Outcome.checkedAdd, if_pos fits, Outcome.ok_bind, Outcome.checkedSub,
      if_pos enough, Outcome.ok_bind, if_pos beyond]
    rfl
  cases shaped with
  | empty checkpoints_eq buildingIndex_eq =>
      refine Or.inr (outside (by omega) (by simp [checkpoints_eq]) ?_)
      simp only [Window.first, QueueStore.window, checkpoints_eq, buildingIndex_eq, List.length_nil]
      omega
  | ordered ordered =>
      by_cases inside : queue.window.first ≤ index ∧ index ≤ queue.buildingIndex
      · exact Or.inl (ordered.exists_get inside.1 inside.2)
      · exact Or.inr (outside ordered.aligned.fits ordered.aligned.window inside)

theorem Shaped.completeFrom_cases (shaped : queue.Shaped) (indexes : List Nat) :
    (∃ found, queue.completeFrom indexes = .ok found) ∨
      queue.completeFrom indexes = .error (.error outOfBounds) := by
  induction indexes with
  | nil => exact Or.inl ⟨[], rfl⟩
  | cons index rest ih =>
      rw [completeFrom]
      rcases shaped.get_cases index with ⟨checkpoint, got⟩ | outside
      · rw [got, Outcome.ok_bind]
        by_cases isComplete : checkpoint.status = .complete
        · rw [if_pos isComplete]
          rcases ih with ⟨others, read⟩ | outside
          · exact Or.inl ⟨(index, checkpoint) :: others, by rw [read]; rfl⟩
          · exact Or.inr (by rw [outside]; rfl)
        · rw [if_neg isComplete]
          exact Or.inl ⟨[], rfl⟩
      · exact Or.inr (by rw [outside]; rfl)

/-- The first pass over the confirmed checkpoints always succeeds. -/
theorem Shaped.exists_takePendingConfirmed (shaped : queue.Shaped) :
    ∃ taken, queue.takePendingConfirmed = .ok taken := by
  have read : (∃ unhandled, queue.unhandledConfirmed = .ok unhandled) ∨
      queue.unhandledConfirmed = .error (.error outOfBounds) := by
    unfold unhandledConfirmed
    cases queue.confirmedIndex with
    | none => exact Or.inl ⟨[], rfl⟩
    | some confirmedIndex =>
        rcases shaped.completeFrom_cases (List.range' queue.firstUnhandledConfirmedIndex
          (confirmedIndex + 1 - queue.firstUnhandledConfirmedIndex)) with ⟨found, read⟩ | outside
        · exact Or.inl ⟨found.map Prod.fst, Outcome.bind_eq_ok.mpr ⟨found, read, rfl⟩⟩
        · right
          change queue.completeFrom _ >>= _ = _
          rw [outside, Outcome.error_bind]
  unfold takePendingConfirmed
  rcases read with ⟨unhandled, read⟩ | outside
  · rw [read]
    have present {index : Nat} (member : index ∈ unhandled) : queue.Ordered ∧
        queue.window.first ≤ index ∧ index ≤ queue.buildingIndex := by
      obtain ⟨checkpoint, found, -⟩ := unhandledConfirmed_complete read member
      have ordered := shaped.ordered_of_item found
      exact ⟨ordered, Window.first_le_of_item found,
        Window.le_last_of_item ordered.aligned.window found⟩
    rcases List.eq_nil_or_concat unhandled with rfl | ⟨others, last, rfl⟩
    · exact ⟨(queue, []), rfl⟩
    · rw [List.concat_eq_append] at present
      obtain ⟨ordered, -, upper⟩ := present (List.mem_append_right others List.mem_cons_self)
      obtain ⟨⟨cleared, dests⟩, taken⟩ := ordered.exists_takePending fun index member =>
        (present member).2
      have fits : last + 1 < 2 ^ 32 := by
        have := ordered.aligned.fits
        omega
      refine ⟨({ cleared with firstUnhandledConfirmedIndex := last + 1 }, dests), ?_⟩
      simp only [List.concat_eq_append, List.getLast?_append, List.getLast?_singleton]
      rw [taken, Outcome.ok_bind]
      exact Outcome.bind_eq_ok.mpr ⟨last + 1, Outcome.checkedAdd_eq_ok.mpr ⟨fits, rfl⟩, rfl⟩
  · rw [outside]
    exact ⟨(queue, []), rfl⟩

theorem KeepsConfirmed.put (keeps : queue.KeepsConfirmed) (replacement : Checkpoint) :
    (queue.put index replacement).KeepsConfirmed := by
  intro nonempty
  rw [window_put, Window.first_put]
  apply keeps
  rintro empty
  simp [QueueStore.put, Window.put, QueueStore.window, empty] at nonempty

/-- Pending transfers can be taken when the confirmed checkpoint is kept. -/
theorem KeepsConfirmed.exists_takePendingCompleted (keeps : queue.KeepsConfirmed)
    (shaped : queue.Shaped) : ∃ taken, queue.takePendingCompleted = .ok taken := by
  obtain ⟨⟨cleared, confirmedDests⟩, takenConfirmed⟩ := shaped.exists_takePendingConfirmed
  obtain ⟨clearedShaped, clearedKeeps⟩ : cleared.Shaped ∧ cleared.KeepsConfirmed := by
    refine takePendingConfirmed_invariant (fun current => current.Shaped ∧ current.KeepsConfirmed)
      ?_ ?_ ⟨shaped, keeps⟩ takenConfirmed
    · rintro current index checkpoint ⟨currentShaped, currentKeeps⟩ got
      exact ⟨currentShaped.clearPending got, currentKeeps.put _⟩
    · rintro current next ⟨currentShaped, currentKeeps⟩
      exact ⟨currentShaped.withFirstUnhandled next, currentKeeps⟩
  obtain ⟨signingFound, readSigning⟩ := clearedShaped.exists_signing
  unfold takePendingCompleted
  rw [takenConfirmed, Outcome.ok_bind]
  have read := lastCompletedIndex_eq readSigning
  by_cases enough : (if signingFound.isSome then 2 else 1) ≤ cleared.buildingIndex
  · rw [if_pos enough] at read
    simp only [read]
    cases clearedShaped with
    | empty checkpoints_eq buildingIndex_eq => split at enough <;> omega
    | ordered ordered =>
        have present (index : Nat) (member : index ∈ List.range' (cleared.confirmedIndex.getD 0)
            (cleared.buildingIndex - (if signingFound.isSome then 2 else 1) + 1 -
              cleared.confirmedIndex.getD 0)) :
            cleared.window.first ≤ index ∧ index ≤ cleared.buildingIndex := by
          have lower := clearedKeeps ordered.nonempty
          have bounds := List.mem_range'_1.mp member
          exact ⟨lower.trans bounds.1, by omega⟩
        obtain ⟨⟨last, completedDests⟩, taken⟩ := ordered.exists_takePending present
        exact ⟨_, Outcome.bind_eq_ok.mpr ⟨_, taken, rfl⟩⟩
  · rw [if_neg enough] at read
    simp only [read]
    exact ⟨(cleared, []), rfl⟩

theorem Shaped.exists_building (shaped : queue.Shaped) (nonempty : queue.checkpoints ≠ []) :
    ∃ building, queue.get queue.buildingIndex = .ok building := by
  cases shaped with
  | empty checkpoints_eq => exact absurd checkpoints_eq nonempty
  | ordered ordered =>
      have positive := List.length_pos_iff.mpr nonempty
      have lengthEq := ordered.length_eq
      exact ordered.exists_get (by omega) le_rfl

/-- The unconfirmed checkpoints start right after the confirmed one, or with the
first one in the queue. -/
theorem firstUnconfirmedIndex_eq_ok (read : queue.firstUnconfirmedIndex = .ok (some index)) :
    index = queue.confirmedIndex.getD 0 + 1 ∨ index = queue.window.first := by
  simp only [firstUnconfirmedIndex, Outcome.bind_eq_ok] at read
  obtain ⟨numUnconf, counted, read⟩ := read
  split at read
  · simp at read
  · rename_i some_unconfirmed
    simp only [Outcome.bind_eq_ok, Outcome.checkedSub_eq_ok, Outcome.pure_eq_ok,
      Option.some.injEq] at read
    obtain ⟨signingFound, readSigning, between, ⟨upper, rfl⟩, last, ⟨enough, rfl⟩, rfl⟩ := read
    simp only [numUnconfirmed, Outcome.bind_eq_ok] at counted
    obtain ⟨sameFound, readAgain, counted⟩ := counted
    obtain rfl := Except.ok.inj (readSigning.symm.trans readAgain)
    generalize (if signingFound.isSome then 1 else 0) = offset at counted enough upper ⊢
    by_cases few : queue.buildingIndex < 1 + offset
    · rw [if_pos few] at counted
      exact absurd (Outcome.pure_eq_ok.mp counted).symm some_unconfirmed
    · rw [if_neg few] at counted
      cases isConfirmed : queue.confirmedIndex with
      | some confirmedIndex =>
          simp only [isConfirmed, Outcome.checkedSub_eq_ok] at counted
          simp only [Option.getD_some]
          omega
      | none =>
          simp only [isConfirmed, Outcome.bind_eq_ok, Outcome.checkedSub_eq_ok] at counted
          obtain ⟨others, ⟨positive, rfl⟩, counted⟩ := counted
          simp only [Window.first, QueueStore.window]
          omega

theorem Shaped.avoids_signing (shaped : queue.Shaped) : Outcome.Avoids outOfBounds queue.signing := by
  obtain ⟨signingFound, read⟩ := shaped.exists_signing
  rw [read]
  exact Outcome.avoids_ok _

theorem Shaped.avoids_firstUnconfirmedIndex (shaped : queue.Shaped) :
    Outcome.Avoids outOfBounds queue.firstUnconfirmedIndex := by
  apply Outcome.Avoids.bind
  · apply shaped.avoids_signing.bind
    intro signingFound _
    dsimp only
    generalize (if signingFound.isSome then 1 else 0) = offset
    split
    · simp
    · split
      · apply Outcome.Avoids.bind (by simp)
        simp
      · simp
  · intro numUnconf _
    split
    · simp
    · apply shaped.avoids_signing.bind
      intro signingFound _
      apply Outcome.Avoids.bind (by simp)
      intro between _
      apply Outcome.Avoids.bind (by simp)
      simp

/-- Reading the unconfirmed checkpoints does not leave the queue. -/
theorem KeepsConfirmed.avoids_unconfirmed (keeps : queue.KeepsConfirmed) (shaped : queue.Shaped) :
    Outcome.Avoids outOfBounds queue.unconfirmed := by
  apply shaped.avoids_firstUnconfirmedIndex.bind
  intro first read
  cases first with
  | none => simp
  | some index =>
      have found : ∃ found, queue.completeFrom
          (List.range' index (queue.buildingIndex + 1 - index)) = .ok found := by
        cases shaped with
        | empty checkpoints_eq buildingIndex_eq =>
            have noSigning : queue.signing = .ok none := by simp [signing, checkpoints_eq]
            simp [firstUnconfirmedIndex, numUnconfirmed, noSigning, buildingIndex_eq, bind,
              Except.bind, pure, Except.pure] at read
        | ordered ordered =>
            have lower := keeps ordered.nonempty
            apply ordered.exists_completeFrom
            intro other member
            have bounds := List.mem_range'_1.mp member
            rcases firstUnconfirmedIndex_eq_ok read with rfl | rfl <;> omega
      obtain ⟨found, readFrom⟩ := found
      change Outcome.Avoids outOfBounds (queue.completeFrom _ >>= _)
      rw [readFrom]
      exact Outcome.avoids_ok _

/-- Nor does computing the fee of the checkpoint under construction. -/
theorem KeepsConfirmed.avoids_calcFeeCheckpoint {host : Host} (der : host.DerAvoids outOfBounds)
    (keeps : queue.KeepsConfirmed) (shaped : queue.Shaped) (nonempty : queue.checkpoints ≠ [])
    (config : CheckpointConfig) (commitment : Bytes) :
    Outcome.Avoids outOfBounds
      (queue.calcFeeCheckpoint host config queue.buildingIndex commitment) := by
  have unconfirmed := keeps.avoids_unconfirmed shaped
  obtain ⟨building, got⟩ := shaped.exists_building nonempty
  unfold calcFeeCheckpoint
  rw [got, Outcome.ok_bind]
  apply Outcome.Avoids.bind
  · apply Outcome.Avoids.bind
    · apply unconfirmed.bind
      intro checkpoints _
      apply Outcome.avoids_foldlM
      intro fees checkpoint _
      exact checkpoint.avoids_checkpointTxMinerFees.bind fun _ _ => by simp
    · intro feesPaid _
      apply Outcome.Avoids.bind
      · apply unconfirmed.bind
        intro checkpoints _
        apply Outcome.avoids_foldlM
        intro sum checkpoint _
        exact (checkpoint.avoids_estVsize der config _).bind fun _ _ => by simp
      · intro vbytes _
        apply Outcome.Avoids.bind (by simp)
        simp
  · intro additionalFees _
    apply Outcome.Avoids.bind
    · exact (building.avoids_estVsize der config commitment).bind fun _ _ => by simp
    · simp

end QueueStore

namespace Contract

/-- The confirmed checkpoint is one of the last nine, or not too old. -/
def RetainsConfirmed (store : Store) (env : Env) : Prop :=
  match store.queue.get (store.queue.confirmedIndex.getD 0) with
  | .ok checkpoint =>
      store.queue.buildingIndex < store.queue.confirmedIndex.getD 0 + 9 ∨
        env.seconds - checkpoint.createTime ≤ store.checkpointConfig.maxAge
  | .error _ => True

instance (store : Store) (env : Env) : Decidable (RetainsConfirmed store env) := by
  unfold RetainsConfirmed
  split <;> infer_instance

variable {host : Host} {store : Store} {call : Call}

/-- Handing out pending transfers keeps the indexes and the signatory sets. -/
theorem sigset_takePendingCompleted {queue after : QueueStore} {dests : Payouts}
    (taken : queue.takePendingCompleted = .ok (after, dests)) {index : Nat} {checkpoint : Checkpoint}
    (found : after.window.item index = some checkpoint) :
    ∃ earlier, queue.window.item index = some earlier ∧ earlier.sigset = checkpoint.sigset := by
  have kept := QueueStore.takePendingCompleted_invariant (fun current => ∀ index checkpoint,
    current.window.item index = some checkpoint →
      ∃ earlier, queue.window.item index = some earlier ∧ earlier.sigset = checkpoint.sigset)
    ?_ (fun _ _ holds => holds) (fun _ checkpoint found => ⟨checkpoint, found, rfl⟩) taken
  · exact kept index checkpoint found
  · intro current other cleared holds got index checkpoint found
    obtain ⟨-, clearedAt⟩ := QueueStore.get_eq_ok.mp got
    rw [QueueStore.window_put, Window.item_put clearedAt] at found
    split at found
    · rename_i same
      obtain rfl := Option.some.inj found
      obtain ⟨earlier, earlierAt, sameSigset⟩ := holds other cleared clearedAt
      exact ⟨earlier, same ▸ earlierAt, sameSigset⟩
    · exact holds index checkpoint found

/-- A confirmed checkpoint that is recent or young is not dropped. -/
theorem keepsConfirmed_rollover {env : Env} {commitment : Bytes} {unitsPerSat : Nat} {after : Store}
    (rollover : Store.Rollover host env commitment unitsPerSat store after)
    (shaped : store.queue.Shaped) (keeps : store.queue.KeepsConfirmed)
    (retained : ∀ checkpoint,
      store.queue.window.item (store.queue.confirmedIndex.getD 0) = some checkpoint →
        store.queue.buildingIndex < store.queue.confirmedIndex.getD 0 + 9 ∨
          env.seconds - checkpoint.createTime ≤ store.checkpointConfig.maxAge) :
    after.queue.KeepsConfirmed := by
  intro _
  rw [rollover.first_after, rollover.confirmedIndex_after]
  have split := rollover.checkpoints_eq
  have ordered := shaped.ordered_of_split split
  have lower : store.queue.window.first ≤ store.queue.confirmedIndex.getD 0 :=
    keeps ordered.nonempty
  have lengthEq := ordered.length_eq
  rw [split, List.length_append, List.length_singleton] at lengthEq
  have prunedLe := rollover.pruned_le_older
  by_contra dropped
  have isPruned : store.queue.confirmedIndex.getD 0 - store.queue.window.first < rollover.pruned := by
    omega
  -- The confirmed checkpoint is dropped, so it is outdated.
  obtain ⟨checkpoint, found⟩ : ∃ checkpoint,
      rollover.older[store.queue.confirmedIndex.getD 0 - store.queue.window.first]? =
        some checkpoint :=
    ⟨_, List.getElem?_eq_getElem (isPruned.trans_le prunedLe)⟩
  obtain ⟨many, old⟩ := rollover.outdated _ checkpoint isPruned found
  have item : store.queue.window.item (store.queue.confirmedIndex.getD 0) = some checkpoint := by
    have inRange := (List.getElem?_eq_some_iff.mp found).1
    have position : store.queue.window.item (store.queue.window.first +
        (store.queue.confirmedIndex.getD 0 - store.queue.window.first)) = _ := Window.item_add _
    rw [Nat.add_sub_cancel' lower] at position
    rw [position]
    change store.queue.checkpoints[_]? = _
    rw [split, List.getElem?_append_left inRange, found]
  rcases retained checkpoint item with recent | young
  · omega
  · omega

theorem preserves_keepsConfirmed (shaped : store.queue.Shaped)
    (keeps : store.queue.KeepsConfirmed)
    (permitted : Pushes host store call → RetainsConfirmed store call.env) :
    Preserves host store call QueueStore.KeepsConfirmed where
  credited := by
    intro deposit after _ credited
    have ordered := shaped.ordered_of_split credited.checkpoints_eq
    rw [credited.after_eq, ← QueueStore.put_building ordered.aligned credited.checkpoints_eq]
    exact keeps.put _
  withdrawn := by
    intro queue after queueShaped queueKeeps withdrawn
    have ordered := queueShaped.ordered_of_split withdrawn.checkpoints_eq
    rw [withdrawn.after_eq, ← QueueStore.put_building ordered.aligned withdrawn.checkpoints_eq]
    exact queueKeeps.put _
  signed := by
    intro signature after _ signed
    obtain ⟨_, _, -, -, -, -, -, rfl⟩ := QueueStore.sign_eq_ok signed
    exact keeps.put _
  confirmed := by
    intro cpIndex checkpoint _ got _ _
    exact Window.first_le_of_item (QueueStore.get_eq_ok.mp got).2
  paidOut := fun _ queueKeeps _ => queueKeeps.put _
  handled := fun queueKeeps => queueKeeps
  started := by
    intro before after _ first _
    have indexEq := first.buildingIndex_after
    simp only [Window.first, QueueStore.window, first.checkpoints_after, List.length_singleton]
    omega
  rolled := by
    intro hash dests unitsPerSat queue after isClock taken should queueShaped queueKeeps rollover
    apply keepsConfirmed_rollover rollover queueShaped queueKeeps
    intro checkpoint item
    obtain ⟨earlier, earlierAt, sameSigset⟩ := sigset_takePendingCompleted taken item
    obtain ⟨sameIndex, sameConfirmed⟩ := QueueStore.indexes_takePendingCompleted taken
    have sameTime : earlier.createTime = checkpoint.createTime := by
      rw [Checkpoint.createTime, Checkpoint.createTime, sameSigset]
    rw [sameConfirmed] at earlierAt
    have got := QueueStore.get_eq_ok.mpr ⟨(shaped.ordered_of_item earlierAt).aligned, earlierAt⟩
    have retains := permitted (pushes_of_shouldPush isClock taken should)
    rw [RetainsConfirmed, got] at retains
    rw [← sameTime]
    change queue.buildingIndex < queue.confirmedIndex.getD 0 + 9 ∨ _
    rwa [sameIndex, sameConfirmed]

end Contract

/-- In every run that pushes checkpoints only while the confirmed one is among
the last nine or not too old, the queue has everything from the confirmed
checkpoint on, and neither payouts nor fees look for a checkpoint that is not
in the queue. -/
theorem Contract.run_needed_kept (host : Host) (der : host.DerAvoids outOfBounds)
    (info : MessageInfo) (msg : InstantiateMsg) (calls : List Call)
    (permitted : (machine host).Permitted ((machine host).OnSuccess
      fun store call => Pushes host store call → RetainsConfirmed store call.env)
      (instantiate host info msg) calls) :
    (∀ index, ((machine host).run (instantiate host info msg) calls).queue.checkpoints ≠ [] →
      ((machine host).run (instantiate host info msg) calls).queue.confirmedIndex.getD 0 ≤ index →
      index ≤ ((machine host).run (instantiate host info msg) calls).queue.buildingIndex →
        ∃ checkpoint, ((machine host).run (instantiate host info msg) calls).queue.get index =
          .ok checkpoint) ∧
    ((machine host).run (instantiate host info msg) calls).queue.takePendingCompleted ≠
      .error (.error outOfBounds) ∧
    ((machine host).run (instantiate host info msg) calls).queue.unconfirmed ≠
      .error (.error outOfBounds) ∧
    ∀ config commitment,
      ((machine host).run (instantiate host info msg) calls).queue.checkpoints ≠ [] →
      ((machine host).run (instantiate host info msg) calls).queue.calcFeeCheckpoint host config
        ((machine host).run (instantiate host info msg) calls).queue.buildingIndex commitment ≠
          .error (.error outOfBounds) := by
  obtain ⟨shaped, keeps⟩ := run_preserves QueueStore.KeepsConfirmed
    (fun _ _ shaped keeps allowed => preserves_keepsConfirmed shaped keeps allowed)
    (.empty rfl rfl) (fun nonempty => absurd rfl nonempty) permitted
  refine ⟨fun index nonempty lower upper => keeps.exists_get shaped nonempty lower upper, ?_,
    keeps.avoids_unconfirmed shaped,
    fun config commitment nonempty => keeps.avoids_calcFeeCheckpoint der shaped nonempty config commitment⟩
  obtain ⟨taken, takenOk⟩ := keeps.exists_takePendingCompleted shaped
  rw [takenOk]
  exact nofun

namespace Sample

/-- The end of a block twelve days after the previous one, and the signature of
the checkpoint that it freezes. -/
def stepAndSign (index : Nat) : List Contract.Call :=
  let seconds := 1000 + MAX_CHECKPOINT_INTERVAL * (index + 1)
  [.clockEndBlock querier (env seconds) [2, UInt8.ofNat index],
    executeAt seconds (.submitCheckpointSignature (xpub 1) [⟨(pubkey 1).bytes⟩] index 7)]

/-- Under the default configuration of checkpoints, a deposit is followed by so
many checkpoints of which none is confirmed. -/
def unconfirmedCalls (count : Nat) : List Contract.Call := openingCalls largeDepositTx ++ [
  .clockEndBlock querier (env 1000) [1],
  relayDepositAt 1010 7 largeDepositTx "a"] ++ (List.range count).flatMap stepAndSign

end Sample

theorem Contract.run_needed_kept_sample :
    let store := (machine Sample.host).run Sample.initial (Sample.unconfirmedCalls 3)
    store.queue.checkpoints.length = 4 ∧
      store.queue.unconfirmed ≠ .error (.error outOfBounds) := by
  intro store
  refine ⟨by decide +kernel, ?_⟩
  exact (run_needed_kept Sample.host (fun _ => nofun) Sample.info Sample.instantiateMsg
    (Sample.unconfirmedCalls 3) (by decide +kernel)).2.2.1

/-- The eleventh checkpoint drops the first one, which payouts look for. -/
theorem Contract.run_needed_pruned :
    let store := (machine Sample.host).run Sample.initial (Sample.unconfirmedCalls 10)
    store.checkpointConfig = CheckpointConfig.default ∧ store.queue.confirmedIndex = none ∧
      store.queue.buildingIndex = 10 ∧ store.queue.get 0 = .error (.error outOfBounds) ∧
      store.queue.takePendingCompleted = .error (.error outOfBounds) := by
  intro store
  exact ⟨by decide +kernel, by decide +kernel, by decide +kernel, by decide +kernel,
    by decide +kernel⟩

end CwBitcoin
