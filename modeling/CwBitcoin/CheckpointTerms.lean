import CwBitcoin.CallInvariants

/-!
# The terms of checkpoints

The fee rate, the signatory set and whether deposits are allowed are decided when
a checkpoint is started.  No call changes them afterwards: seen by its terms, the
queue is a window of a sequence that grows at its end and is pruned at its front.
-/

namespace CwBitcoin

namespace Checkpoint

/-- What is decided when a checkpoint is started. -/
structure Terms where
  feeRate : Nat
  depositsEnabled : Bool
  sigset : SignatorySet

def Terms.createTime (terms : Terms) : Nat := terms.sigset.createTime

def terms (checkpoint : Checkpoint) : Terms where
  feeRate := checkpoint.feeRate
  depositsEnabled := checkpoint.depositsEnabled
  sigset := checkpoint.sigset

@[simp]
theorem terms_createTime (checkpoint : Checkpoint) :
    checkpoint.terms.createTime = checkpoint.createTime := rfl

@[simp]
theorem terms_paidOut (checkpoint : Checkpoint) : checkpoint.paidOut.terms = checkpoint.terms := rfl

theorem terms_completed {host : Host} {checkpoint signed : Checkpoint} {xpub : Xpub}
    {sigs : List Signature} {btcHeight : Nat}
    (signedOk : checkpoint.sign host xpub sigs btcHeight = .ok signed) :
    (checkpoint.completed signed).terms = checkpoint.terms := by
  have sameTerms : signed.terms = checkpoint.terms := by rw [(sign_eq_ok signedOk).2]; rfl
  unfold completed
  split
  · exact sameTerms
  · exact sameTerms

end Checkpoint

namespace QueueStore

/-- The queue, seen by the terms of its checkpoints. -/
def terms (queue : QueueStore) : Window Checkpoint.Terms := queue.window.map Checkpoint.terms

variable {queue after : QueueStore} {index : Nat} {checkpoint replacement : Checkpoint}
  {older : List Checkpoint}

theorem terms_length (queue : QueueStore) :
    queue.terms.items.length = queue.checkpoints.length := by
  simp [terms, Window.map, window]

theorem Aligned.of_terms (aligned : queue.Aligned) (same : after.terms = queue.terms) :
    after.Aligned := by
  have sameIndex : after.buildingIndex = queue.buildingIndex := congrArg Window.last same
  have sameLength : after.checkpoints.length = queue.checkpoints.length := by
    rw [← terms_length, ← terms_length, same]
  have enough : queue.checkpoints.length ≤ queue.buildingIndex + 1 := aligned.window
  refine ⟨sameIndex ▸ aligned.fits, ?_⟩
  change after.checkpoints.length ≤ after.buildingIndex + 1
  rwa [sameIndex, sameLength]

theorem terms_item (queue : QueueStore) (index : Nat) :
    queue.terms.item index = (queue.window.item index).map Checkpoint.terms :=
  Window.item_map _ _

theorem terms_put (found : queue.window.item index = some checkpoint)
    (same : replacement.terms = checkpoint.terms) :
    (queue.put index replacement).terms = queue.terms :=
  Window.map_put Checkpoint.terms found same

theorem terms_replaceBuilding (split : queue.checkpoints = older ++ [checkpoint])
    (same : replacement.terms = checkpoint.terms) :
    terms { queue with checkpoints := older ++ [replacement] } = queue.terms := by
  simp [terms, window, Window.map, split, same]

theorem terms_takePendingCompleted {dests : Payouts}
    (taken : queue.takePendingCompleted = .ok (after, dests)) : after.terms = queue.terms := by
  refine takePendingCompleted_invariant (fun current => current.terms = queue.terms) ?_ ?_ rfl taken
  · rintro current index checkpoint same got
    obtain ⟨-, found⟩ := get_eq_ok.mp got
    exact (terms_put found (Checkpoint.terms_paidOut checkpoint)).trans same
  · exact fun _ _ same => same

theorem terms_sign {host : Host} {xpub : Xpub} {sigs : List Signature} {btcHeight : Nat}
    (signed : queue.sign host xpub sigs index btcHeight = .ok after) :
    after.terms = queue.terms := by
  obtain ⟨checkpoint, signedCheckpoint, found, -, signedOk, rfl⟩ :=
    @sign_completed queue after host ⟨xpub, sigs, index, btcHeight⟩ signed
  exact terms_put found (Checkpoint.terms_completed signedOk)

end QueueStore

/-- How the fee rate of a checkpoint follows from that of the one before it. -/
inductive FeeRateStep (config : CheckpointConfig) (prev : Nat) : Nat → Prop
  | kept : FeeRateStep config prev prev
  | adjusted (up : Bool) {next : Nat} (adjustedOk : adjustFeeRate prev up config = .ok next) :
      FeeRateStep config prev next

theorem feeRateStep_of_nextFeeRate {queue : QueueStore} {config : CheckpointConfig}
    {prevFeeRate btcHeight feeRate : Nat}
    (decided : Store.nextFeeRate queue config prevFeeRate btcHeight = .ok feeRate) :
    FeeRateStep config prevFeeRate feeRate := by
  simp only [Store.nextFeeRate, Outcome.bind_eq_ok] at decided
  obtain ⟨first, -, decided⟩ := decided
  split at decided
  · simp only [Outcome.bind_eq_ok] at decided
    obtain ⟨firstUnconf, -, sinceFirst, -, lastIndex, -, lastUnconf, -, sinceLast, -, decided⟩ :=
      decided
    split at decided
    · exact .adjusted true decided
    · obtain rfl := Outcome.pure_eq_ok.mp decided
      exact .kept
  · split at decided
    · exact .adjusted false decided
    · obtain rfl := Outcome.pure_eq_ok.mp decided
      exact .kept
    · simp at decided

namespace Store

variable {host : Host} {env : Env} {store after : Store} {commitment : Bytes}

/-- The fee rate of a further checkpoint follows from that of the one it takes over from. -/
theorem Rollover.feeRateStep {depositsEnabled pushed : Bool} {queue : QueueStore}
    {config : BitcoinConfig} {btcHeight : Nat}
    (rollover : Rollover host env commitment config.unitsPerSat store after)
    (grown : Grown host env commitment depositsEnabled store queue)
    (stepped : stepGrown host store queue btcHeight commitment config = .ok (after, pushed)) :
    FeeRateStep store.checkpointConfig rollover.building.feeRate rollover.feeRate := by
  obtain ⟨-, index, next, sigset, -, pruned, few, -, -, -, -, rfl⟩ := grown
  rw [nextIndex, if_neg (by simp [rollover.checkpoints_eq]), Outcome.checkedAdd_eq_ok] at next
  obtain ⟨-, rfl⟩ := next
  unfold stepGrown at stepped
  rw [if_neg (Nat.succ_ne_zero _)] at stepped
  simp only [Outcome.bind_eq_ok, Outcome.checkedMul_eq_ok, checkedI64_eq_ok, Outcome.pure_eq_ok,
    Prod.mk.injEq] at stepped
  obtain ⟨cpFees, -, prev, got, ⟨frozen, advanced⟩, advancedOk, frozenQueue, wroteFrozen, _, -, _,
    -, feeRate, decided, newest, readNewest, filled, filledOk, lastQueue, wroteFilled, afterEq, -⟩ :=
    stepped
  obtain rfl : lastQueue = after.queue := congrArg Store.queue afterEq
  obtain ⟨-, prevAt⟩ := QueueStore.get_eq_ok.mp got
  obtain ⟨-, -, -, rfl⟩ := QueueStore.set_eq_ok.mp wroteFrozen
  obtain ⟨-, newestAt⟩ := QueueStore.get_eq_ok.mp readNewest
  obtain ⟨-, -, -, lastEq⟩ := QueueStore.set_eq_ok.mp wroteFilled
  have filledAt : after.queue.window.item (store.queue.buildingIndex + 1) = some filled := by
    rw [← lastEq, QueueStore.window_put, Window.item_put newestAt]
    exact if_pos rfl
  have frozenAt : after.queue.window.item store.queue.buildingIndex = some frozen := by
    rw [← lastEq, QueueStore.window_put, Window.item_put newestAt, QueueStore.window_put,
      Window.item_put prevAt]
    exact (if_neg (Nat.ne_of_lt (Nat.lt_succ_self _))).trans (if_pos rfl)
  have lower := rollover.pruned_le_older
  have lengthEq : store.queue.checkpoints.length = rollover.older.length + 1 := by
    simp [rollover.checkpoints_eq]
  have enough : store.queue.checkpoints.length ≤ store.queue.buildingIndex + 1 :=
    rollover.aligned.window
  have notPruned : ¬ store.queue.buildingIndex < store.queue.window.first + rollover.pruned := by
    simp only [Window.first, QueueStore.window]
    omega
  have frozenEq : frozen = rollover.frozen := by
    rw [rollover.item_after, if_neg notPruned, if_neg (by omega), if_pos rfl] at frozenAt
    exact (Option.some.inj frozenAt).symm
  have filledEq : filled = rollover.fresh := by
    rw [rollover.item_after, if_neg (by omega), if_pos rfl] at filledAt
    exact (Option.some.inj filledAt).symm
  have prevRate : prev.feeRate = rollover.building.feeRate := by
    obtain ⟨-, frozenTx, -, -, -, rfl, -⟩ := Checkpoint.advance_eq_ok advancedOk
    have sameRate := congrArg Checkpoint.feeRate frozenEq
    exact sameRate
  have filledRate : feeRate = rollover.feeRate := by
    simp only [fillBuilding, Outcome.bind_eq_ok, Outcome.pure_eq_ok] at filledOk
    obtain ⟨tx, -, input, -, excess, -, rfl⟩ := filledOk
    have sameRate := congrArg Checkpoint.feeRate filledEq
    exact sameRate
  rw [← prevRate, ← filledRate]
  exact feeRateStep_of_nextFeeRate decided

/-- The first checkpoint allows deposits when the block step does. -/
theorem FirstPush.depositsEnabled_eq {depositsEnabled pushed : Bool} {queue : QueueStore}
    {config : BitcoinConfig} {btcHeight : Nat} (first : FirstPush host env store after)
    (grown : Grown host env commitment depositsEnabled store queue)
    (stepped : stepGrown host store queue btcHeight commitment config = .ok (after, pushed)) :
    first.depositsEnabled = depositsEnabled := by
  obtain ⟨-, index, next, sigset, -, pruned, few, -, -, -, -, rfl⟩ := grown
  rw [nextIndex, if_pos first.empty, first.buildingIndex_eq] at next
  obtain rfl := Except.ok.inj next
  unfold stepGrown at stepped
  rw [if_pos rfl] at stepped
  simp only [Outcome.pure_eq_ok, Prod.mk.injEq] at stepped
  have checkpointsEq := congrArg (fun store : Store => store.queue.checkpoints) stepped.1
  rw [first.checkpoints_after, first.empty] at checkpointsEq
  obtain rfl : pruned = 0 := by
    rw [first.empty, List.length_nil] at few
    omega
  exact (congrArg Checkpoint.depositsEnabled (List.cons.inj checkpointsEq).1).symm

end Store

namespace QueueStore

/-- The queue without its pending transfers. -/
def paidOut (queue : QueueStore) : QueueStore :=
  { queue with checkpoints := queue.checkpoints.map Checkpoint.paidOut }

variable {queue after : QueueStore}

theorem get_paidOut (queue : QueueStore) (index : Nat) :
    queue.paidOut.get index = Checkpoint.paidOut <$> queue.get index := by
  simp only [get, paidOut, List.length_map]
  cases getDequeIndex queue.buildingIndex queue.checkpoints.length index with
  | error _ => rfl
  | ok position =>
      simp only [Outcome.ok_bind, List.getElem?_map]
      cases queue.checkpoints[position]? <;> rfl

theorem signing_paidOut (queue : QueueStore) :
    queue.paidOut.signing = Option.map Checkpoint.paidOut <$> queue.signing := by
  rw [signing, signing]
  have sameLength : queue.paidOut.checkpoints.length = queue.checkpoints.length := by simp [paidOut]
  rw [sameLength]
  split
  · rfl
  · change (do
      let index ← Outcome.checkedSub queue.buildingIndex 1
      let second ← queue.paidOut.get index
      return if second.status = CheckpointStatus.signing then some second else none) = _
    cases Outcome.checkedSub (ε := ContractError) queue.buildingIndex 1 with
    | error _ => rfl
    | ok index =>
        rw [Outcome.ok_bind, Outcome.ok_bind, get_paidOut]
        cases queue.get index with
        | error _ => rfl
        | ok second =>
            exact congrArg Except.ok (apply_ite (Option.map Checkpoint.paidOut)
              (second.status = .signing) (some second) none).symm

theorem lastCompletedIndex_paidOut (queue : QueueStore) :
    queue.paidOut.lastCompletedIndex = queue.lastCompletedIndex := by
  rw [lastCompletedIndex, lastCompletedIndex, signing_paidOut]
  cases queue.signing with
  | error _ => rfl
  | ok found => cases found <;> rfl

theorem lastCompleted_paidOut (queue : QueueStore) :
    queue.paidOut.lastCompleted = Checkpoint.paidOut <$> queue.lastCompleted := by
  rw [lastCompleted, lastCompleted, lastCompletedIndex_paidOut]
  cases queue.lastCompletedIndex with
  | error _ => rfl
  | ok index => exact get_paidOut queue index

/-- Taking the pending transfers takes nothing else from the queue. -/
theorem paidOut_takePendingCompleted {dests : Payouts}
    (taken : queue.takePendingCompleted = .ok (after, dests)) :
    ∃ next, after.paidOut = { queue.paidOut with firstUnhandledConfirmedIndex := next } := by
  refine takePendingCompleted_invariant (fun current => ∃ next, current.paidOut =
    { queue.paidOut with firstUnhandledConfirmedIndex := next }) ?_ ?_ ⟨_, rfl⟩ taken
  · rintro current index checkpoint ⟨next, same⟩ got
    obtain ⟨-, found⟩ := get_eq_ok.mp got
    have unseen : (current.put index checkpoint.paidOut).window.map Checkpoint.paidOut =
        current.window.map Checkpoint.paidOut := Window.map_put _ found rfl
    refine ⟨next, ?_⟩
    rw [← same, paidOut, paidOut]
    exact congrArg (fun window : Window Checkpoint =>
      { current with checkpoints := window.items }) unseen
  · rintro current other ⟨next, same⟩
    exact ⟨other, congrArg (fun queue : QueueStore =>
      { queue with firstUnhandledConfirmedIndex := other }) same⟩

end QueueStore

namespace Store

/-- Whether a checkpoint that is started now allows deposits. -/
def allowsDeposits (host : Host) (store : Store) : ContractResult Bool := do
  let hasCompletedCp ← store.hasCompletedCp
  let reachedCapacityLimit ← store.reachedCapacityLimit host hasCompletedCp
  return !reachedCapacityLimit

variable {host : Host} {store : Store} {queue : QueueStore}

/-- The capacity limit looks at the reserve, not at the pending transfers. -/
theorem allowsDeposits_paidOut (host : Host) (store : Store) :
    allowsDeposits host { store with queue := store.queue.paidOut } = store.allowsDeposits host := by
  have sameCompleted : hasCompletedCp { store with queue := store.queue.paidOut } =
      store.hasCompletedCp := by
    rw [hasCompletedCp, hasCompletedCp, QueueStore.lastCompletedIndex_paidOut]
  have sameValue : valueLocked host { store with queue := store.queue.paidOut } =
      store.valueLocked host := by
    rw [valueLocked, valueLocked, QueueStore.lastCompleted_paidOut]
    cases store.queue.lastCompleted <;> rfl
  rw [allowsDeposits, allowsDeposits, sameCompleted]
  cases store.hasCompletedCp with
  | error _ => rfl
  | ok hasCompletedCp =>
      rw [Outcome.ok_bind, Outcome.ok_bind, reachedCapacityLimit, reachedCapacityLimit, sameValue]

theorem allowsDeposits_takePendingCompleted {dests : Payouts}
    (taken : store.queue.takePendingCompleted = .ok (queue, dests)) :
    allowsDeposits host { store with queue } = store.allowsDeposits host := by
  obtain ⟨next, same⟩ := QueueStore.paidOut_takePendingCompleted taken
  rw [← allowsDeposits_paidOut host store, ← allowsDeposits_paidOut host { store with queue }]
  dsimp only
  rw [same]
  rfl

theorem interval_le_of_buildingReady {env : Env} {commitment : Bytes} {btcHeight : Nat}
    (checked : store.buildingReady host env commitment btcHeight = .ok true) :
    ∃ building, store.queue.building = .ok building ∧
      building.createTime + store.checkpointConfig.minCheckpointInterval ≤ env.seconds := by
  simp only [buildingReady, Outcome.bind_eq_ok, Outcome.checkedSub_eq_ok] at checked
  obtain ⟨building, read, elapsed, ⟨ordered, rfl⟩, checked⟩ := checked
  obtain ⟨notEarly, -⟩ := Outcome.ite_pure_false_eq_ok.mp checked
  exact ⟨building, read, by omega⟩

theorem Rollover.interval_le {env : Env} {commitment : Bytes} {btcHeight unitsPerSat : Nat}
    {after : Store} (rollover : Rollover host env commitment unitsPerSat store after)
    (should : store.shouldPush host env commitment btcHeight = .ok true) :
    rollover.building.createTime + store.checkpointConfig.minCheckpointInterval ≤ env.seconds := by
  obtain ⟨-, ready, -, -⟩ := shouldPush_eq_ok should
  obtain ⟨building, read, apart⟩ :=
    interval_le_of_buildingReady (ready (by simp [rollover.checkpoints_eq]))
  obtain ⟨-, buildingAt⟩ := QueueStore.get_eq_ok.mp read
  obtain rfl := Option.some.inj (buildingAt.symm.trans rollover.item_building)
  exact apart

/-- Seen by its terms, the queue grows by the new checkpoint and is pruned. -/
theorem Rollover.terms_after {env : Env} {commitment : Bytes} {unitsPerSat : Nat} {after : Store}
    (rollover : Rollover host env commitment unitsPerSat store after) :
    after.queue.terms =
      (store.queue.terms.push rollover.fresh.terms).drop rollover.pruned := by
  have sameFrozen : rollover.frozen.terms = rollover.building.terms := rfl
  rw [QueueStore.terms, rollover.window_after, Window.map_drop, Window.map_push,
    Window.map_put _ rollover.item_building sameFrozen, QueueStore.terms]

end Store

/-- Pruning goes on until ten checkpoints remain or the oldest one is young
enough. -/
def QueueStore.Recent (checkpoints : List Checkpoint) (latest maxAge : Nat) : Prop :=
  checkpoints.length ≤ 10 ∨ ∀ oldest ∈ checkpoints.head?, latest ≤ oldest.createTime + maxAge

theorem QueueStore.recent_of_pruneCheckpoints {latest maxAge : Nat}
    {checkpoints remaining : List Checkpoint}
    (pruned : pruneCheckpoints latest maxAge checkpoints = .ok remaining) :
    Recent remaining latest maxAge := by
  induction checkpoints with
  | nil =>
      obtain rfl := Except.ok.inj pruned
      exact Or.inl (Nat.zero_le _)
  | cons oldest rest ih =>
      simp only [pruneCheckpoints] at pruned
      split at pruned
      · rename_i few
        obtain rfl := Except.ok.inj pruned
        exact Or.inl few
      · simp only [Outcome.bind_eq_ok, Outcome.checkedSub_eq_ok] at pruned
        obtain ⟨age, ⟨-, rfl⟩, pruned⟩ := pruned
        split at pruned
        · obtain rfl := Outcome.pure_eq_ok.mp pruned
          right
          intro first isFirst
          obtain rfl := Option.some.inj isFirst
          omega
        · exact ih pruned

/-- Whether the oldest checkpoint is young enough only depends on the times. -/
theorem QueueStore.young_congr {checkpoints others : List Checkpoint} {latest maxAge : Nat}
    (same : others.map Checkpoint.createTime = checkpoints.map Checkpoint.createTime)
    (young : ∀ oldest ∈ checkpoints.head?, latest ≤ oldest.createTime + maxAge) :
    ∀ oldest ∈ others.head?, latest ≤ oldest.createTime + maxAge := by
  intro oldest isFirst
  have sameFirst := congrArg List.head? same
  rw [List.head?_map, List.head?_map, isFirst] at sameFirst
  obtain ⟨first, firstEq, sameTime⟩ := Option.map_eq_some_iff.mp sameFirst.symm
  rw [← sameTime]
  exact young first firstEq

theorem QueueStore.Recent.congr {checkpoints others : List Checkpoint} {latest maxAge : Nat}
    (recent : Recent checkpoints latest maxAge)
    (same : others.map Checkpoint.createTime = checkpoints.map Checkpoint.createTime) :
    Recent others latest maxAge := by
  rcases recent with few | young
  · left
    rwa [← List.length_map Checkpoint.createTime, same, List.length_map]
  · exact Or.inr (young_congr same young)

namespace Store

variable {env : Env} {store after : Store} {commitment : Bytes} {host : Host}

theorem createTimes_set {queue next : QueueStore} {index : Nat} {checkpoint replacement : Checkpoint}
    (got : queue.get index = .ok checkpoint) (wrote : queue.set index replacement = .ok next)
    (same : replacement.createTime = checkpoint.createTime) :
    next.checkpoints.map Checkpoint.createTime = queue.checkpoints.map Checkpoint.createTime := by
  obtain ⟨-, found⟩ := QueueStore.get_eq_ok.mp got
  obtain ⟨-, -, -, rfl⟩ := QueueStore.set_eq_ok.mp wrote
  exact congrArg Window.items (Window.map_put Checkpoint.createTime found same)

theorem createTimes_stepGrown {queue : QueueStore} {config : BitcoinConfig} {btcHeight : Nat}
    {pushed : Bool}
    (stepped : stepGrown host store queue btcHeight commitment config = .ok (after, pushed)) :
    after.queue.checkpoints.map Checkpoint.createTime =
      queue.checkpoints.map Checkpoint.createTime := by
  unfold stepGrown at stepped
  split at stepped
  · obtain rfl := congrArg Prod.fst (Outcome.pure_eq_ok.mp stepped)
    rfl
  · simp only [Outcome.bind_eq_ok, Outcome.pure_eq_ok, Prod.mk.injEq] at stepped
    obtain ⟨cpFees, -, prev, got, ⟨frozen, advanced⟩, advancedOk, frozenQueue, wroteFrozen, _, -,
      _, -, feeRate, -, newest, readNewest, filled, filledOk, lastQueue, wroteFilled, rfl, -⟩ :=
      stepped
    obtain ⟨-, frozenTx, -, -, -, rfl, -⟩ := Checkpoint.advance_eq_ok advancedOk
    have filledTime : filled.createTime = newest.createTime := by
      simp only [fillBuilding, Outcome.bind_eq_ok, Outcome.pure_eq_ok] at filledOk
      obtain ⟨tx, -, input, -, excess, -, rfl⟩ := filledOk
      rfl
    exact (createTimes_set readNewest wroteFilled filledTime).trans
      (createTimes_set got wroteFrozen rfl)

/-- What a step leaves in the queue is recent. -/
theorem recent_of_maybeStep {allowed pushed : Bool} {btcHeight : Nat}
    {parentConfig : BitcoinConfig}
    (stepped : store.maybeStep host env btcHeight allowed commitment parentConfig =
      .ok (after, pushed)) :
    after = store ∨
      QueueStore.Recent after.queue.checkpoints env.seconds store.checkpointConfig.maxAge := by
  simp only [maybeStep, Outcome.bind_eq_ok] at stepped
  obtain ⟨should, shouldOk, stepped⟩ := stepped
  split at stepped
  · exact Or.inl (congrArg Prod.fst (Outcome.pure_eq_ok.mp stepped)).symm
  · rename_i shouldTrue
    obtain rfl : should = true := by simpa using shouldTrue
    simp only [Outcome.bind_eq_ok] at stepped
    obtain ⟨⟨pushedStore, pushedCp⟩, push, stepped⟩ := stepped
    obtain ⟨index, sigset, -, built, isSome, -, rfl⟩ :=
      maybePush_eq_ok (ready_of_shouldPush shouldOk) push
    rw [if_neg (by simp [Option.isNone_iff_eq_none, Option.isSome_iff_ne_none.mp isSome])] at stepped
    simp only [Outcome.bind_eq_ok] at stepped
    obtain ⟨queue, pruneOk, continued⟩ := stepped
    simp only [QueueStore.prune, Outcome.bind_eq_ok, Outcome.pure_eq_ok] at pruneOk
    obtain ⟨newest, readNewest, checkpoints, prunedOk, rfl⟩ := pruneOk
    obtain ⟨-, others, split⟩ := QueueStore.building_eq_ok.mp readNewest
    obtain rfl := (List.cons.inj (List.append_inj' split rfl).2).1
    have latest : env.seconds = Checkpoint.createTime
        { Checkpoint.new sigset with depositsEnabled := allowed } :=
      (SignatorySet.fromValidatorCtx_index built).1.symm
    rw [latest]
    exact Or.inr ((QueueStore.recent_of_pruneCheckpoints prunedOk).congr
      (createTimes_stepGrown continued))

end Store

namespace Contract

variable {host : Host} {store after : Store} {call : Call}

theorem clockEndBlock_of_blockHash {hash : Bytes} (isClock : call.blockHash = some hash)
    (called : (machine host).call store call = .ok after) :
    ∃ querier response, clockEndBlock host querier call.env store hash = .ok response ∧
      response.1 = after := by
  obtain ⟨response, executed, rfl⟩ := executed_of_machine called
  cases executed with
  | triggerBeginBlock querier _ _ _ clocked | clockEndBlock querier _ _ clocked =>
      obtain rfl := Option.some.inj isClock
      exact ⟨querier, response, clocked, rfl⟩
  | _ => cases isClock

/-- The block step, with what decides whether deposits are allowed. -/
theorem maybeStep_of_blockHash {hash : Bytes} (isClock : call.blockHash = some hash)
    (called : (machine host).call store call = .ok after) :
    ∃ queue dests stepped allowed pushed,
      store.queue.takePendingCompleted = .ok (queue, dests) ∧
      store.allowsDeposits host = .ok allowed ∧
      Store.maybeStep host call.env { store with queue } (HeaderQueue.height store.headers) allowed
        hash store.bitcoinConfig = .ok (stepped, pushed) ∧
      stepped.SameBridge after := by
  obtain ⟨querier, response, ended, rfl⟩ := clockEndBlock_of_blockHash isClock called
  obtain ⟨queue, dests, -, begun, offline, punished, taken, -, begunOk, punishedOk, rfl⟩ :=
    clockEndBlock_eq_ok ended
  simp only [Store.beginBlockStep, Outcome.bind_eq_ok] at begunOk
  obtain ⟨hasCompleted, readCompleted, reached, readReached, ⟨stepped, pushed⟩, steppedOk,
    begunOk⟩ := begunOk
  have allowed : store.allowsDeposits host = .ok (!reached) := by
    rw [← Store.allowsDeposits_takePendingCompleted taken, Store.allowsDeposits, readCompleted,
      Outcome.ok_bind, readReached]
    rfl
  have sameStore : stepped = begun := by
    split at begunOk
    · simp only [Outcome.bind_eq_ok, Outcome.pure_eq_ok, Prod.mk.injEq] at begunOk
      obtain ⟨-, -, same, -⟩ := begunOk
      exact same
    · exact congrArg Prod.fst (Outcome.pure_eq_ok.mp begunOk)
  subst sameStore
  exact ⟨queue, dests, stepped, !reached, pushed, taken, allowed, steppedOk,
    (outsideRegistry_punishAll punishedOk).sameBridge.trans ⟨rfl, rfl, rfl⟩⟩

/-- What decides the terms of every checkpoint that a block starts. -/
structure Starts (host : Host) (store : Store) (call : Call) (newest : Checkpoint.Terms) :
    Prop where
  isClock : call.blockHash ≠ none
  createTime_eq : newest.createTime = call.env.seconds
  allows_eq : store.allowsDeposits host = .ok newest.depositsEnabled

/-- What a call does to the terms of the checkpoints. -/
inductive TermsStep (host : Host) (store : Store) (call : Call) (after : Store) : Prop
  | kept (terms_eq : after.queue.terms = store.queue.terms)
  | first (newest : Checkpoint.Terms) (starts : Starts host store call newest)
      (empty : store.queue.checkpoints = []) (feeRate_eq : newest.feeRate = DEFAULT_FEE_RATE)
      (terms_eq : after.queue.terms = { items := [newest], last := 0 })
  | pushed (building newest : Checkpoint.Terms) (starts : Starts host store call newest)
      (pruned : Nat) (pruned_lt : pruned < store.queue.checkpoints.length)
      (aligned : store.queue.Aligned)
      (last : store.queue.terms.items.getLast? = some building)
      (feeRate : FeeRateStep store.checkpointConfig building.feeRate newest.feeRate)
      (apart : building.createTime + store.checkpointConfig.minCheckpointInterval ≤
        newest.createTime)
      (outdated : ∀ terms ∈ store.queue.terms.items.take pruned,
        terms.createTime + store.checkpointConfig.maxAge < call.env.seconds)
      (recent : QueueStore.Recent after.queue.checkpoints call.env.seconds
        store.checkpointConfig.maxAge)
      (terms_eq : after.queue.terms = (store.queue.terms.push newest).drop pruned)

theorem Starts.of_sigset {hash : Bytes} {index : Nat} {sigset : SignatorySet}
    {newest : Checkpoint.Terms} {queue : QueueStore} (isClock : call.blockHash = some hash)
    (built : Store.signatorySet host { store with queue } call.env.seconds index = .ok sigset)
    (isSigset : newest.sigset = sigset)
    (allowed : store.allowsDeposits host = .ok newest.depositsEnabled) :
    Starts host store call newest where
  isClock := by simp [isClock]
  createTime_eq := by
    rw [Checkpoint.Terms.createTime, isSigset]
    exact (SignatorySet.fromValidatorCtx_index built).1
  allows_eq := allowed

/-- The terms after a block that starts a further checkpoint. -/
theorem termsStep_of_rollover {hash : Bytes} {queue : QueueStore} {dests : Payouts}
    {stepped : Store} (isClock : call.blockHash = some hash)
    (taken : store.queue.takePendingCompleted = .ok (queue, dests))
    (should : Store.shouldPush host call.env { store with queue } hash
      (HeaderQueue.height store.headers) = .ok true)
    (rollover : Store.Rollover host call.env hash store.bitcoinConfig.unitsPerSat
      { store with queue } stepped)
    (feeRate : FeeRateStep store.checkpointConfig rollover.building.feeRate rollover.feeRate)
    (allowed : store.allowsDeposits host = .ok rollover.depositsEnabled)
    (recent : QueueStore.Recent stepped.queue.checkpoints call.env.seconds
      store.checkpointConfig.maxAge)
    (same : stepped.SameBridge after) : TermsStep host store call after := by
  have sameTerms := QueueStore.terms_takePendingCompleted taken
  have split : queue.checkpoints = rollover.older ++ [rollover.building] := rollover.checkpoints_eq
  have sameItems : store.queue.terms.items =
      rollover.older.map Checkpoint.terms ++ [rollover.building.terms] := by
    rw [← sameTerms, QueueStore.terms, Window.map, QueueStore.window, split, List.map_append]
    rfl
  have lengthEq : store.queue.checkpoints.length = rollover.older.length + 1 := by
    rw [← QueueStore.terms_length, sameItems]
    simp
  have prunedLe := rollover.pruned_le_older
  refine .pushed rollover.building.terms rollover.fresh.terms
    (.of_sigset isClock rollover.sigset_eq rfl allowed) rollover.pruned (by omega)
    (rollover.aligned.of_terms sameTerms.symm) ?_ feeRate ?_ ?_ (same.queue_eq ▸ recent) ?_
  · rw [sameItems]
    exact List.getLast?_concat
  · have apart := rollover.interval_le should
    have starts : rollover.fresh.terms.createTime = call.env.seconds :=
      (SignatorySet.fromValidatorCtx_index rollover.sigset_eq).1
    rw [starts]
    exact apart
  · intro terms member
    rw [sameItems, List.take_append_of_le_length (by simpa using prunedLe)] at member
    obtain ⟨position, inRange, rfl⟩ := List.getElem_of_mem member
    rw [List.length_take, List.length_map] at inRange
    have inOlder : position < rollover.older.length := by omega
    have tooOld : store.checkpointConfig.maxAge <
        call.env.seconds - rollover.older[position].createTime :=
      (rollover.outdated position rollover.older[position] (by omega)
        (List.getElem?_eq_getElem inOlder)).2
    rw [List.getElem_take, List.getElem_map, Checkpoint.terms_createTime]
    omega
  · rw [same.queue_eq, rollover.terms_after]
    exact congrArg (fun terms => (Window.push terms rollover.fresh.terms).drop rollover.pruned)
      sameTerms

/-- Every successful call keeps the terms or starts a checkpoint. -/
theorem termsStep_of_call (called : (machine host).call store call = .ok after) :
    TermsStep host store call after := by
  have effect := effect_of_call called
  cases effect with
  | deposit _ _ _ _ _ _ _ _ _ relayed =>
      apply TermsStep.kept
      rcases Store.credited_of_relayDeposit relayed with same | ⟨⟨credited⟩⟩
      · rw [same]
      · rw [credited.after_eq]
        exact QueueStore.terms_replaceBuilding credited.checkpoints_eq rfl
  | withdrawal _ _ _ _ _ added =>
      apply TermsStep.kept
      refine addWithdrawals_invariant (fun current => current.queue.terms = store.queue.terms) ?_
        rfl added
      intro current amount next same addedOne
      obtain ⟨withdrawn⟩ := Store.withdrawn_of_addWithdrawal addedOne
      rw [withdrawn.after_eq, ← same]
      exact QueueStore.terms_replaceBuilding withdrawn.checkpoints_eq rfl
  | signature _ _ _ _ _ _ signed => exact .kept (QueueStore.terms_sign signed)
  | confirmation _ _ _ _ _ relayed =>
      obtain ⟨-, -, rfl⟩ := Store.relayCheckpoint_eq_ok relayed
      exact .kept rfl
  | configuration => exact .kept rfl
  | @endBlock _ hash _ _ _ isClock =>
      obtain ⟨queue, dests, stepped, allowed, pushed, taken, readAllowed, steppedOk, same⟩ :=
        maybeStep_of_blockHash isClock called
      have sameTerms := QueueStore.terms_takePendingCompleted taken
      rcases Store.grown_of_maybeStep steppedOk with ⟨rfl, -⟩ | ⟨grownQueue, ⟨grown⟩, continued⟩
      · exact .kept ((congrArg QueueStore.terms same.queue_eq).trans sameTerms)
      · rcases List.eq_nil_or_concat queue.checkpoints with empty | ⟨older, building, split⟩
        · obtain ⟨first⟩ := grown.firstPush empty continued
          have enabled := first.depositsEnabled_eq grown continued
          have startEmpty : store.queue.checkpoints = [] := by
            rw [← List.length_eq_zero_iff, ← QueueStore.terms_length, ← sameTerms,
              QueueStore.terms_length, empty, List.length_nil]
          refine .first { feeRate := DEFAULT_FEE_RATE, depositsEnabled := allowed, sigset := first.sigset }
            ?_ startEmpty rfl ?_
          · exact .of_sigset isClock first.sigset_eq rfl readAllowed
          · rw [same.queue_eq, QueueStore.terms, Window.map, QueueStore.window,
              first.checkpoints_after, first.buildingIndex_after, enabled]
            rfl
        · rw [List.concat_eq_append] at split
          obtain ⟨rollover, enabled⟩ := grown.rollover split continued
          have should := rollover.shouldPush_of_maybeStep steppedOk
          have recent := (Store.recent_of_maybeStep steppedOk).resolve_left fun same => by
            have sameIndex := congrArg (fun store : Store => store.queue.buildingIndex) same
            rw [rollover.buildingIndex_after] at sameIndex
            exact Nat.succ_ne_self _ sameIndex
          exact termsStep_of_rollover isClock taken should rollover
            (rollover.feeRateStep grown continued) (enabled ▸ readAllowed) recent same
  | other _ _ same => exact .kept (congrArg QueueStore.terms same.queue_eq)

end Contract

end CwBitcoin
