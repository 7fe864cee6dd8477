import CwBitcoin.CallInvariants

/-!
# The limit on unconfirmed checkpoints

A checkpoint is pushed only while fewer checkpoints than the configured limit
are complete and not yet confirmed.  The one that is frozen by the push takes
the free place, and signing, confirming and pruning never take another one.
-/

namespace CwBitcoin

/-- How many of the first numbers are not below a bound. -/
theorem countP_range_le {Holds : Nat → Bool} (count lower : Nat)
    (bound : ∀ index, index < count → Holds index → lower ≤ index) :
    (List.range count).countP Holds ≤ count - lower := by
  induction count with
  | zero => simp
  | succ count ih =>
      have before := ih fun index isBefore => bound index (by omega)
      rw [List.range_succ, List.countP_append, List.countP_singleton]
      split
      · have atLast := bound count (by omega) ‹_›
        omega
      · omega

/-- Two properties that exclude each other are counted separately. -/
theorem countP_add_countP_le {α : Type} {First Second Either : α → Bool} (xs : List α)
    (first : ∀ x, First x → Either x ∧ Second x = false) (second : ∀ x, Second x → Either x) :
    xs.countP First + xs.countP Second ≤ xs.countP Either := by
  induction xs with
  | nil => simp
  | cons x xs ih =>
      have firstImplies := first x
      have secondImplies := second x
      rw [List.countP_cons, List.countP_cons, List.countP_cons]
      cases isFirst : First x <;> cases isSecond : Second x <;>
        simp_all <;> omega

namespace QueueStore

/-- No checkpoint from this index on has been confirmed. -/
def AboveConfirmed (queue : QueueStore) (index : Nat) : Prop :=
  ∀ confirmedIndex ∈ queue.confirmedIndex, confirmedIndex < index

instance (queue : QueueStore) (index : Nat) : Decidable (queue.AboveConfirmed index) :=
  inferInstanceAs (Decidable (∀ confirmedIndex ∈ queue.confirmedIndex, confirmedIndex < index))

/-- The number of complete checkpoints above the confirmed one. -/
def unconfirmedCompleted (queue : QueueStore) : Nat :=
  (List.range (queue.buildingIndex + 1)).countP fun index =>
    decide (queue.AboveConfirmed index) &&
      (queue.window.item index).any fun checkpoint => checkpoint.status = .complete

/-- Whether a checkpoint waits for signatures, as a number. -/
def signingCount (queue : QueueStore) : Nat :=
  if queue.checkpoints.any (fun checkpoint => checkpoint.status = .signing) then 1 else 0

/-- The checkpoint at an index takes one of the places that the limit gives. -/
def takesPlace (queue : QueueStore) (index : Nat) : Bool :=
  (queue.window.item index).any fun checkpoint =>
    checkpoint.status = .signing ∨ (checkpoint.status = .complete ∧ queue.AboveConfirmed index)

def placesTaken (queue : QueueStore) : Nat :=
  (List.range (queue.buildingIndex + 1)).countP queue.takesPlace

section Places

variable {queue after : QueueStore} {index : Nat} {checkpoint replacement : Checkpoint}

@[simp]
theorem takesPlace_iff : queue.takesPlace index = true ↔
    ∃ checkpoint, queue.window.item index = some checkpoint ∧
      (checkpoint.status = .signing ∨
        (checkpoint.status = .complete ∧ queue.AboveConfirmed index)) := by
  simp [takesPlace, Option.any_eq_true]

/-- Fewer places are taken when each of them was taken before. -/
theorem placesTaken_le (sameIndex : after.buildingIndex = queue.buildingIndex)
    (before : ∀ index, after.takesPlace index → queue.takesPlace index) :
    after.placesTaken ≤ queue.placesTaken := by
  unfold placesTaken
  rw [sameIndex]
  apply List.countP_mono_left
  intro index _
  exact before index

/-- A replaced checkpoint takes no place that was free, as long as it is not
complete for the first time without having been frozen. -/
theorem placesTaken_put (found : queue.window.item index = some checkpoint)
    (status : replacement.status = checkpoint.status ∨
      (checkpoint.status = .signing ∧ replacement.status = .complete)) :
    (queue.put index replacement).placesTaken ≤ queue.placesTaken := by
  apply placesTaken_le
  · rfl
  intro other taken
  obtain ⟨current, currentAt, takes⟩ := takesPlace_iff.mp taken
  rw [window_put, Window.item_put found] at currentAt
  split at currentAt
  · rename_i same
    obtain rfl := Option.some.inj currentAt
    rw [same]
    apply takesPlace_iff.mpr
    refine ⟨checkpoint, found, ?_⟩
    rcases status with sameStatus | ⟨isSigning, -⟩
    · rw [← sameStatus, ← same]
      exact takes
    · exact Or.inl isSigning
  · exact takesPlace_iff.mpr ⟨current, currentAt, takes⟩

/-- A queue of its own shape with one more checkpoint in the old one's place. -/
theorem placesTaken_replaceBuilding {older : List Checkpoint} (ordered : queue.Ordered)
    (split : queue.checkpoints = older ++ [checkpoint])
    (status : replacement.status = checkpoint.status) :
    placesTaken { queue with checkpoints := older ++ [replacement] } ≤ queue.placesTaken := by
  rw [← put_building ordered.aligned split]
  exact placesTaken_put (ordered.item_building split) (Or.inl status)

/-- A later confirmation frees places. -/
theorem placesTaken_confirmed {cpIndex : Nat}
    (later : ∀ confirmedIndex ∈ queue.confirmedIndex, confirmedIndex < cpIndex) :
    placesTaken { queue with confirmedIndex := some cpIndex } ≤ queue.placesTaken := by
  apply placesTaken_le
  · rfl
  intro index taken
  obtain ⟨checkpoint, found, takes⟩ := takesPlace_iff.mp taken
  apply takesPlace_iff.mpr
  refine ⟨checkpoint, found, takes.imp_right fun complete => ⟨complete.1, ?_⟩⟩
  intro confirmedIndex isConfirmed
  exact (later confirmedIndex isConfirmed).trans (complete.2 cpIndex rfl)

/-- A checkpoint that waits for signatures has an index of its own. -/
theorem signingCount_le (shaped : queue.Shaped) : queue.signingCount ≤
    (List.range (queue.buildingIndex + 1)).countP fun index =>
      (queue.window.item index).any fun checkpoint => checkpoint.status = .signing := by
  unfold signingCount
  split
  · rename_i some_signing
    obtain ⟨checkpoint, member, isSigning⟩ := List.any_eq_true.mp some_signing
    obtain ⟨position, found⟩ := List.getElem?_of_mem member
    have itemAt : queue.window.item (queue.window.first + position) = some checkpoint := by
      rw [Window.item_add]
      exact found
    have upper : queue.window.first + position ≤ queue.buildingIndex :=
      Window.le_last_of_item (shaped.ordered_of_item itemAt).aligned.window itemAt
    apply List.one_le_countP_iff.mpr
    refine ⟨queue.window.first + position, List.mem_range.mpr (by omega), ?_⟩
    rw [itemAt]
    exact isSigning
  · exact Nat.zero_le _

theorem unconfirmedCompleted_add_signingCount_le (shaped : queue.Shaped) :
    queue.unconfirmedCompleted + queue.signingCount ≤ queue.placesTaken := by
  have places : queue.unconfirmedCompleted +
      ((List.range (queue.buildingIndex + 1)).countP fun index =>
        (queue.window.item index).any fun checkpoint => checkpoint.status = .signing) ≤
          queue.placesTaken := by
    apply countP_add_countP_le
    · intro index completed
      cases itemAt : queue.window.item index with
      | none => simp [itemAt] at completed
      | some checkpoint => simp_all [takesPlace]
    · intro index signing
      cases itemAt : queue.window.item index with
      | none => simp [itemAt] at signing
      | some checkpoint => simp_all [takesPlace]
  have := signingCount_le shaped
  omega

end Places

/-- The completed checkpoints of a queue without one that waits for signatures
take as many places as are counted before a push. -/
theorem Ordered.placesTaken_le_numUnconfirmed {queue : QueueStore} (ordered : queue.Ordered)
    (noSigning : queue.signing = .ok none) {count : Nat}
    (counted : queue.numUnconfirmed = .ok count) :
    (List.range queue.buildingIndex).countP queue.takesPlace ≤ count := by
  have takes : ∀ index, index < queue.buildingIndex → queue.takesPlace index →
      queue.window.first ≤ index ∧ queue.AboveConfirmed index := by
    intro index before taken
    obtain ⟨checkpoint, found, isSigning | ⟨-, above⟩⟩ := takesPlace_iff.mp taken
    · by_cases isLast : index + 1 = queue.buildingIndex
      · exact absurd isSigning (Ordered.not_signing noSigning found isLast)
      · rw [ordered.complete found (by omega)] at isSigning
        cases isSigning
    · exact ⟨Window.first_le_of_item found, above⟩
  simp only [numUnconfirmed, Outcome.bind_eq_ok] at counted
  obtain ⟨signing, readSigning, counted⟩ := counted
  obtain rfl := Except.ok.inj (readSigning.symm.trans noSigning)
  simp only [Option.isSome_none, Bool.false_eq_true, if_false] at counted
  split at counted
  · rename_i isFirst
    obtain isZero : queue.buildingIndex = 0 := by omega
    simp [isZero]
  · cases confirmed : queue.confirmedIndex with
    | none =>
        -- Every checkpoint but the one under construction may take a place.
        simp only [confirmed, Outcome.bind_eq_ok, Outcome.checkedSub_eq_ok] at counted
        obtain ⟨length, ⟨-, rfl⟩, -, rfl⟩ := counted
        have bound := countP_range_le queue.buildingIndex queue.window.first
          fun index before taken => (takes index before taken).1
        have lengthEq := ordered.length_eq
        omega
    | some confirmedIndex =>
        simp only [confirmed, Outcome.checkedSub_eq_ok] at counted
        obtain ⟨-, rfl⟩ := counted
        have bound := countP_range_le queue.buildingIndex (confirmedIndex + 1)
          fun index before taken => (takes index before taken).2 confirmedIndex confirmed
        omega

end QueueStore

namespace Store

variable {host : Host} {env : Env} {store after : Store} {commitment : Bytes}

/-- The frozen checkpoint takes one place more than the ones before it. -/
theorem Rollover.placesTaken_le {unitsPerSat : Nat}
    (rollover : Rollover host env commitment unitsPerSat store after) :
    after.queue.placesTaken ≤
      (List.range store.queue.buildingIndex).countP store.queue.takesPlace + 1 := by
  have freshFree : after.queue.takesPlace (store.queue.buildingIndex + 1) = false := by
    rw [Bool.eq_false_iff]
    intro taken
    obtain ⟨checkpoint, found, takes⟩ := QueueStore.takesPlace_iff.mp taken
    rcases rollover.item_after_cases found with ⟨-, rfl⟩ | ⟨impossible, -⟩ | ⟨impossible, -⟩
    · have isBuilding : rollover.fresh.status = .building := rfl
      rw [isBuilding] at takes
      simp at takes
    · omega
    · omega
  have olderKept : (List.range store.queue.buildingIndex).countP after.queue.takesPlace ≤
      (List.range store.queue.buildingIndex).countP store.queue.takesPlace := by
    apply List.countP_mono_left
    intro index member taken
    have before := List.mem_range.mp member
    obtain ⟨checkpoint, found, takes⟩ := QueueStore.takesPlace_iff.mp taken
    rcases rollover.item_after_cases found with ⟨impossible, -⟩ | ⟨impossible, -⟩ | ⟨-, oldAt⟩
    · omega
    · omega
    · apply QueueStore.takesPlace_iff.mpr
      refine ⟨checkpoint, oldAt, takes.imp_right fun complete => ⟨complete.1, ?_⟩⟩
      have above := complete.2
      rwa [QueueStore.AboveConfirmed, rollover.confirmedIndex_after] at above
  unfold QueueStore.placesTaken
  rw [rollover.buildingIndex_after, List.range_succ, List.range_succ, List.countP_append,
    List.countP_append, List.countP_singleton, List.countP_singleton, freshFree]
  simp only [Bool.false_eq_true, if_false]
  split <;> omega

end Store

namespace Contract

variable {host : Host} {store : Store} {call : Call}

/-- A call under the given limit keeps the places taken within it. -/
theorem preserves_placesTaken {config : CheckpointConfig} (shaped : store.queue.Shaped)
    (holds : store.queue.placesTaken ≤ config.maxUnconfirmedCheckpoints)
    (fixed : store.queue.checkpoints = [] ∨ store.checkpointConfig = config) :
    Preserves host store call
      fun queue => queue.placesTaken ≤ config.maxUnconfirmedCheckpoints where
  credited := by
    intro deposit after _ credited
    have ordered := shaped.ordered_of_split credited.checkpoints_eq
    rw [credited.after_eq]
    apply le_trans _ holds
    apply QueueStore.placesTaken_replaceBuilding ordered credited.checkpoints_eq
    rfl
  withdrawn := by
    intro queue after queueShaped queueHolds withdrawn
    have ordered := queueShaped.ordered_of_split withdrawn.checkpoints_eq
    rw [withdrawn.after_eq]
    apply le_trans _ queueHolds
    apply QueueStore.placesTaken_replaceBuilding ordered withdrawn.checkpoints_eq
    rfl
  signed := by
    intro signature after _ signed
    obtain ⟨checkpoint, signedCheckpoint, found, -, signedOk, rfl⟩ :=
      QueueStore.sign_completed signed
    have sameStatus : signedCheckpoint.status = checkpoint.status := by
      rw [(Checkpoint.sign_eq_ok signedOk).2]
    apply (QueueStore.placesTaken_put found _).trans holds
    unfold Checkpoint.completed
    split
    · rename_i completes
      exact Or.inr ⟨completes.1, rfl⟩
    · exact Or.inl sameStatus
  confirmed := by
    intro cpIndex checkpoint _ _ later
    exact (QueueStore.placesTaken_confirmed later).trans holds
  paidOut := by
    intro queue index checkpoint _ queueHolds got
    apply le_trans _ queueHolds
    apply QueueStore.placesTaken_put (QueueStore.get_eq_ok.mp got).2
    exact Or.inl rfl
  handled := fun queueHolds => queueHolds
  started := by
    intro before after _ first
    have free : after.queue.takesPlace 0 = false := by
      rw [Bool.eq_false_iff]
      intro taken
      obtain ⟨checkpoint, found, takes⟩ := QueueStore.takesPlace_iff.mp taken
      have isBuilding : checkpoint.status = .building :=
        first.ordered.last (by rw [first.buildingIndex_after]; exact found)
      simp [isBuilding] at takes
    simp [QueueStore.placesTaken, first.buildingIndex_after, free]
  rolled := by
    intro hash dests unitsPerSat queue after _ taken should queueShaped _ rollover
    have ordered := queueShaped.ordered_of_split rollover.checkpoints_eq
    have nonempty : store.queue.checkpoints ≠ [] := by
      intro empty
      have stillEmpty : queue.checkpoints = [] :=
        QueueStore.takePendingCompleted_invariant (fun current => current.checkpoints = [])
          (fun current _ _ isEmpty _ => by
            simp [QueueStore.put, Window.put, QueueStore.window, isEmpty])
          (fun _ _ isEmpty => isEmpty) empty taken
      exact ordered.nonempty stillEmpty
    have sameConfig : store.checkpointConfig = config := fixed.resolve_left nonempty
    obtain ⟨-, -, ⟨count, counted, belowLimit⟩, -⟩ := Store.shouldPush_eq_ok should
    calc
      after.queue.placesTaken ≤ (List.range queue.buildingIndex).countP queue.takesPlace + 1 :=
        rollover.placesTaken_le
      _ ≤ count + 1 := Nat.succ_le_succ
        (ordered.placesTaken_le_numUnconfirmed rollover.ready.signing_eq counted)
      _ ≤ store.checkpointConfig.maxUnconfirmedCheckpoints := belowLimit
      _ = config.maxUnconfirmedCheckpoints := by rw [sameConfig]

/-- In every state of every run in which the configuration stays the same from
the first checkpoint on, the complete checkpoints that are not confirmed and the
one that waits for signatures are together within the configured limit. -/
theorem run_unconfirmed_le (host : Host) (info : MessageInfo) (msg : InstantiateMsg)
    (config : CheckpointConfig) (calls : List Call)
    (fixed : (machine host).Permitted
      (fun store _ => store.queue.checkpoints = [] ∨ store.checkpointConfig = config)
      (instantiate host info msg) calls) :
    let queue := ((machine host).run (instantiate host info msg) calls).queue
    queue.unconfirmedCompleted + queue.signingCount ≤ config.maxUnconfirmedCheckpoints := by
  have start : (instantiate host info msg).queue.placesTaken ≤ config.maxUnconfirmedCheckpoints := by
    simp [QueueStore.placesTaken, instantiate, QueueStore.takesPlace, Window.item,
      QueueStore.window]
  have kept := run_preserves (fun queue => queue.placesTaken ≤ config.maxUnconfirmedCheckpoints)
    (fun store call shaped holds allowed => preserves_placesTaken shaped holds allowed)
    (.empty rfl rfl) start fixed.onSuccess
  exact (QueueStore.unconfirmedCompleted_add_signingCount_le kept.1).trans kept.2

theorem run_unconfirmed_le_sample :
    let queue := ((machine Sample.host).run Sample.initial
      (Sample.setupCalls ++ [Sample.signFirst])).queue
    queue.unconfirmedCompleted = 1 ∧ queue.unconfirmedCompleted + queue.signingCount ≤ 15 :=
  ⟨by decide +kernel, run_unconfirmed_le Sample.host Sample.info Sample.instantiateMsg
    CheckpointConfig.default (Sample.setupCalls ++ [Sample.signFirst]) (by decide +kernel)⟩

end Contract

end CwBitcoin
