import CwBitcoin.WritesInPlace

/-!
# The height at which a checkpoint was signed

The call that completes the signatures of a checkpoint records a height of the
Bitcoin chain, which it brings along.  Pushing checkpoints and adjusting the fee
rate compare the height of the header queue with it.
-/

namespace CwBitcoin

namespace Contract

/-- The signatures are the last ones that the checkpoint needs, so that its
height of signing is recorded. -/
def CheckpointSignature.Completes (host : Host) (queue : QueueStore)
    (signature : CheckpointSignature) : Prop :=
  match queue.get signature.cpIndex with
  | .error _ => False
  | .ok checkpoint =>
      match Checkpoint.signBatches host signature.xpub checkpoint.batches signature.sigs with
      | .error _ => False
      | .ok (batches, _) =>
          checkpoint.signed = false ∧ ({ checkpoint with batches } : Checkpoint).signed = true

instance (host : Host) (queue : QueueStore) (signature : CheckpointSignature) :
    Decidable (signature.Completes host queue) := by
  unfold CheckpointSignature.Completes
  split
  · infer_instance
  · split <;> infer_instance

/-- A call that completes a checkpoint brings a height that the header queue has
reached. -/
def RecordsReached (host : Host) (store : Store) (call : Call) : Prop :=
  ∀ signature ∈ call.signature, signature.Completes host store.queue →
    signature.btcHeight ≤ HeaderQueue.height store.headers

instance (host : Host) (store : Store) (call : Call) : Decidable (RecordsReached host store call) :=
  inferInstanceAs (Decidable (∀ signature ∈ call.signature, _))

end Contract

namespace QueueStore

/-- The heights of signing are those of an earlier queue, or bounded. -/
def SignedFrom (start : QueueStore) (bound : Nat) (queue : QueueStore) : Prop :=
  ∀ index checkpoint height, queue.window.item index = some checkpoint →
    checkpoint.signedAtBtcHeight = some height →
      (∃ earlier, start.window.item index = some earlier ∧
        earlier.signedAtBtcHeight = some height) ∨ height ≤ bound

variable {start queue after : QueueStore} {bound index : Nat} {checkpoint replacement : Checkpoint}
  {older : List Checkpoint}

theorem SignedFrom.refl (queue : QueueStore) (bound : Nat) : queue.SignedFrom bound queue :=
  fun _ checkpoint _ found signedAt => Or.inl ⟨checkpoint, found, signedAt⟩

theorem SignedFrom.put (from_start : start.SignedFrom bound queue)
    (found : queue.window.item index = some checkpoint)
    (recorded : replacement.signedAtBtcHeight = checkpoint.signedAtBtcHeight ∨
      ∃ height ≤ bound, replacement.signedAtBtcHeight = some height) :
    start.SignedFrom bound (queue.put index replacement) := by
  intro other current height currentAt signedAt
  rw [window_put, Window.item_put found] at currentAt
  split at currentAt
  · rename_i same
    obtain rfl := Option.some.inj currentAt
    rcases recorded with sameHeight | ⟨newHeight, reached, isNew⟩
    · rw [sameHeight] at signedAt
      rw [same]
      exact from_start index checkpoint height found signedAt
    · obtain rfl := Option.some.inj (isNew.symm.trans signedAt)
      exact Or.inr reached
  · exact from_start other current height currentAt signedAt

theorem SignedFrom.replaceBuilding (from_start : start.SignedFrom bound queue)
    (ordered : queue.Ordered) (split : queue.checkpoints = older ++ [checkpoint])
    (same : replacement.signedAtBtcHeight = checkpoint.signedAtBtcHeight) :
    start.SignedFrom bound { queue with checkpoints := older ++ [replacement] } := by
  rw [← put_building ordered.aligned split]
  exact from_start.put (ordered.item_building split) (Or.inl same)

/-- Signing keeps the height of a checkpoint, unless it completes it. -/
theorem sign_signedAt {host : Host} {signature : Contract.CheckpointSignature}
    (signed : queue.sign host signature.xpub signature.sigs signature.cpIndex signature.btcHeight =
      .ok after) :
    ∃ checkpoint replacement, queue.window.item signature.cpIndex = some checkpoint ∧
      after = queue.put signature.cpIndex replacement ∧
      (replacement.signedAtBtcHeight = checkpoint.signedAtBtcHeight ∨
        (signature.Completes host queue ∧
          replacement.signedAtBtcHeight = some signature.btcHeight)) := by
  simp only [sign, Outcome.bind_eq_ok, Outcome.require_eq_ok] at signed
  obtain ⟨checkpoint, got, -, -, signedCheckpoint, signedOk, wrote⟩ := signed
  obtain ⟨-, -, -, rfl⟩ := set_eq_ok.mp wrote
  refine ⟨checkpoint, _, (get_eq_ok.mp got).2, rfl, ?_⟩
  have sameHeight : (if checkpoint.status = .signing ∧ signedCheckpoint.signed = true then
      { signedCheckpoint with status := .complete } else signedCheckpoint).signedAtBtcHeight =
        signedCheckpoint.signedAtBtcHeight := by
    split <;> rfl
  rw [sameHeight]
  simp only [Checkpoint.sign, Outcome.bind_eq_ok, Outcome.require_eq_ok] at signedOk
  obtain ⟨⟨batches, remaining⟩, signedBatches, -, -, signedOk⟩ := signedOk
  split at signedOk
  · rename_i completed
    obtain rfl := Outcome.pure_eq_ok.mp signedOk
    refine Or.inr ⟨?_, rfl⟩
    simp only [Contract.CheckpointSignature.Completes, got, signedBatches]
    exact ⟨completed.2, completed.1⟩
  · obtain rfl := Outcome.pure_eq_ok.mp signedOk
    exact Or.inl rfl

end QueueStore

namespace Contract

variable {host : Host} {store after : Store} {call : Call}

/-- A permitted call records no height above that of the header queue. -/
theorem preserves_signedFrom (shaped : store.queue.Shaped)
    (permitted : RecordsReached host store call) :
    Preserves host store call
      (store.queue.SignedFrom (HeaderQueue.height store.headers)) where
  credited := by
    intro deposit after _ credited
    rw [credited.after_eq]
    exact (QueueStore.SignedFrom.refl _ _).replaceBuilding
      (shaped.ordered_of_split credited.checkpoints_eq) credited.checkpoints_eq rfl
  withdrawn := by
    intro queue after queueShaped holds withdrawn
    rw [withdrawn.after_eq]
    exact holds.replaceBuilding (queueShaped.ordered_of_split withdrawn.checkpoints_eq)
      withdrawn.checkpoints_eq rfl
  signed := by
    intro signature after isSignature signed
    obtain ⟨checkpoint, replacement, found, rfl, recorded⟩ := QueueStore.sign_signedAt signed
    apply (QueueStore.SignedFrom.refl _ _).put found
    rcases recorded with same | ⟨completes, recorded⟩
    · exact Or.inl same
    · exact Or.inr ⟨signature.btcHeight, permitted signature isSignature completes, recorded⟩
  confirmed := fun _ _ _ => QueueStore.SignedFrom.refl _ _
  paidOut := by
    intro queue index checkpoint _ holds got
    exact holds.put (QueueStore.get_eq_ok.mp got).2 (Or.inl rfl)
  handled := fun holds => holds
  started := by
    intro before after _ first index checkpoint height found signedAt
    have member : checkpoint ∈ after.queue.checkpoints := Window.mem_of_item found
    rw [first.checkpoints_after, List.mem_singleton] at member
    simp [member, Checkpoint.new] at signedAt
  rolled := by
    intro hash dests unitsPerSat queue after _ _ _ _ holds rollover index checkpoint height found
      signedAt
    rcases rollover.item_after_cases found with ⟨-, rfl⟩ | ⟨rfl, rfl⟩ | ⟨-, oldAt⟩
    · simp [Store.Rollover.fresh, Checkpoint.started, Checkpoint.new] at signedAt
    · exact holds _ rollover.building height rollover.item_building signedAt
    · exact holds index checkpoint height oldAt signedAt

theorem signedFrom_next (shaped : store.queue.Shaped)
    (permitted : (machine host).OnSuccess (RecordsReached host) store call) :
    store.queue.SignedFrom (HeaderQueue.height store.headers)
      ((machine host).next store call).queue := by
  apply CallMachine.next_invariant fun after : Store =>
    store.queue.SignedFrom (HeaderQueue.height store.headers) after.queue
  · intro after called
    exact (effect_of_call called).preserves shaped
      (preserves_signedFrom shaped (permitted after called)) (QueueStore.SignedFrom.refl _ _)
  · exact QueueStore.SignedFrom.refl _ _

/-- The call does not lower the header queue. -/
def KeepsHeight (host : Host) (deque : DequeSet) (store : Store) (call : Call) : Prop :=
  HeaderQueue.height store.headers ≤
    HeaderQueue.height ((machine host deque).next store call).headers

instance (host : Host) (deque : DequeSet) (store : Store) (call : Call) :
    Decidable (KeepsHeight host deque store call) :=
  inferInstanceAs (Decidable (_ ≤ _))

/-- No checkpoint was signed above the height of the header queue. -/
def SignedBelow (store : Store) : Prop :=
  ∀ index checkpoint height, store.queue.window.item index = some checkpoint →
    checkpoint.signedAtBtcHeight = some height → height ≤ HeaderQueue.height store.headers

theorem run_signedBelow {start : Store} (shaped : start.queue.Shaped) (below : SignedBelow start)
    {calls : List Call}
    (reached : (machine host).Permitted ((machine host).OnSuccess (RecordsReached host)) start calls)
    (rising : (machine host).Permitted (KeepsHeight host .element) start calls) :
    SignedBelow ((machine host).run start calls) := by
  induction calls generalizing start with
  | nil => exact below
  | cons call calls ih =>
      obtain ⟨reachedNow, reachedLater⟩ := reached
      obtain ⟨risingNow, risingLater⟩ := rising
      apply ih (shaped_run shaped [call]) _ reachedLater risingLater
      intro index checkpoint height found signedAt
      rcases signedFrom_next shaped reachedNow index checkpoint height found signedAt with
        ⟨earlier, earlierAt, same⟩ | bounded
      · exact (below index earlier height earlierAt same).trans risingNow
      · exact bounded.trans risingNow

end Contract

/-- In every run whose writes are in place and whose calls complete checkpoints with
heights that the header queue has reached, each height of signing was reached when it was
recorded.  While the header queue gets no lower, no checkpoint was signed above it, so
that the blocks since then can be counted. -/
theorem Contract.run_signed_reached (host : Host) (deque : DequeSet) (info : MessageInfo)
    (msg : InstantiateMsg) (calls : List Call) (call : Call)
    (inPlace : (machine host deque).Permitted (WritesInPlace host deque)
      (instantiate host info msg) (calls ++ [call]))
    (permitted : (machine host deque).Permitted
      ((machine host deque).OnSuccess (RecordsReached host))
      (instantiate host info msg) (calls ++ [call])) :
    (∀ index checkpoint height,
      ((machine host deque).run (instantiate host info msg) (calls ++ [call])).queue.get index =
        .ok checkpoint → checkpoint.signedAtBtcHeight = some height →
      (∃ earlier, ((machine host deque).run (instantiate host info msg) calls).queue.get index =
        .ok earlier ∧ earlier.signedAtBtcHeight = some height) ∨
      height ≤
        HeaderQueue.height ((machine host deque).run (instantiate host info msg) calls).headers) ∧
    ((machine host deque).Permitted (KeepsHeight host deque) (instantiate host info msg) calls →
      ∀ index checkpoint,
        ((machine host deque).run (instantiate host info msg) calls).queue.get index =
          .ok checkpoint →
        ¬ HeaderQueue.height ((machine host deque).run (instantiate host info msg) calls).headers <
            checkpoint.signedAtBtcHeight.getD 0 ∧
          ∃ blocks, (Outcome.checkedSub
            (HeaderQueue.height
              ((machine host deque).run (instantiate host info msg) calls).headers)
            (checkpoint.signedAtBtcHeight.getD 0) : ContractResult Nat) = .ok blocks) := by
  obtain ⟨sameRun, transport⟩ := run_inPlace inPlace
  obtain ⟨sameEarlier, transportEarlier⟩ := run_inPlace (CallMachine.permitted_append.mp inPlace).1
  have moved : (machine host).Permitted ((machine host).OnSuccess (RecordsReached host))
      (instantiate host info msg) (calls ++ [call]) := by
    apply (transport _ permitted).imp
    rintro store call ⟨reached, sameCall⟩
    rwa [CallMachine.OnSuccess, sameCall] at reached
  obtain ⟨earlierReached, reached, -⟩ := CallMachine.permitted_append.mp moved
  have shaped := run_shaped host info msg calls
  rw [sameRun, sameEarlier]
  refine ⟨?_, ?_⟩
  · intro index checkpoint height got signedAt
    rw [CallMachine.run_append] at got
    obtain ⟨-, found⟩ := QueueStore.get_eq_ok.mp got
    rcases signedFrom_next shaped reached index checkpoint height found signedAt with
      ⟨earlier, earlierAt, same⟩ | bounded
    · have aligned := (shaped.ordered_of_item earlierAt).aligned
      exact Or.inl ⟨earlier, QueueStore.get_eq_ok.mpr ⟨aligned, earlierAt⟩, same⟩
    · exact Or.inr bounded
  · intro rising index checkpoint got
    have risingThere : (machine host).Permitted (KeepsHeight host .element)
        (instantiate host info msg) calls := by
      apply (transportEarlier _ rising).imp
      rintro store call ⟨rises, sameCall⟩
      rwa [KeepsHeight, CallMachine.next, sameCall] at rises
    have start : SignedBelow (instantiate host info msg) := by
      intro index checkpoint height found _
      exact absurd found (Window.item_ne_of_empty rfl)
    have below := run_signedBelow (.empty rfl rfl) start earlierReached risingThere
    have order : checkpoint.signedAtBtcHeight.getD 0 ≤
        HeaderQueue.height ((machine host).run (instantiate host info msg) calls).headers := by
      cases signedAt : checkpoint.signedAtBtcHeight with
      | none => exact Nat.zero_le _
      | some height => exact below index checkpoint height (QueueStore.get_eq_ok.mp got).2 signedAt
    exact ⟨Nat.not_lt.mpr order, _, Outcome.checkedSub_eq_ok.mpr ⟨order, rfl⟩⟩

theorem Contract.run_signed_reached_sample :
    let store := (machine Sample.host .rawKey).run Sample.initial
      (Sample.setupCalls ++ [Sample.signFirst])
    (Sample.checkpointAt store 0).signedAtBtcHeight = some 7 ∧
      7 ≤ HeaderQueue.height
        ((machine Sample.host .rawKey).run Sample.initial Sample.setupCalls).headers := by
  intro store
  have signedAt : (Sample.checkpointAt store 0).signedAtBtcHeight = some 7 := by decide +kernel
  have got : store.queue.get 0 = .ok (Sample.checkpointAt store 0) := by decide +kernel
  let earlierStore := (machine Sample.host .rawKey).run Sample.initial Sample.setupCalls
  have unsigned : (Sample.checkpointAt earlierStore 0).signedAtBtcHeight = none := by
    decide +kernel
  have gotEarlier : earlierStore.queue.get 0 = .ok (Sample.checkpointAt earlierStore 0) := by
    decide +kernel
  refine ⟨signedAt, ?_⟩
  rcases (run_signed_reached Sample.host .rawKey Sample.info Sample.instantiateMsg
    Sample.setupCalls Sample.signFirst (by decide +kernel) (by decide +kernel)).1 0 _ 7 got
      signedAt with ⟨earlier, got, same⟩ | reached
  · obtain rfl := Except.ok.inj (gotEarlier.symm.trans got)
    rw [unsigned] at same
    cases same
  · exact reached

/-- One signer can record a height far above that of the header queue, and then
no checkpoint is pushed. -/
theorem Contract.run_signed_unreached :
    let store := (machine Sample.host .rawKey).run Sample.initial (Sample.setupCalls ++ [
      Sample.executeAt 1410
        (.submitCheckpointSignature (Sample.xpub 1) [⟨(Sample.pubkey 1).bytes⟩] 0 (2 ^ 32 - 1))])
    HeaderQueue.height store.headers = 7 ∧
      (Sample.checkpointAt store 0).signedAtBtcHeight = some (2 ^ 32 - 1) ∧
      store.shouldPush Sample.host (Sample.env (1410 + MAX_CHECKPOINT_INTERVAL)) [3] 7 = .ok false ∧
      ((machine Sample.host .rawKey).run Sample.initial
        (Sample.setupCalls ++ [Sample.signFirst])).shouldPush
          Sample.host (Sample.env (1410 + MAX_CHECKPOINT_INTERVAL)) [3] 7 = .ok true := by
  intro store
  exact ⟨by decide +kernel, by decide +kernel, by decide +kernel, by decide +kernel⟩

end CwBitcoin
