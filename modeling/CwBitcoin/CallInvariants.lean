import CwBitcoin.Payouts

/-!
# Invariants of the checkpoint queue under calls

A call changes the queue in one of a few ways, and the end of a block in
several of them one after the other.  What each single change preserves is
preserved by every call and holds in every run.
-/

namespace CwBitcoin

namespace Store

/-- A deposit enters the checkpoint under construction. -/
structure Credited (host : Host) (store : Store) (deposit : Contract.RelayedDeposit)
    (after : QueueStore) where
  older : List Checkpoint
  building : Checkpoint
  checkpoints_eq : store.queue.checkpoints = older ++ [building]
  firstTx_eq : building.firstTx = .ok building.mainTx
  checkpoint : Checkpoint
  get_eq : store.queue.get deposit.sigsetIndex = .ok checkpoint
  output : TxOut
  output_eq : deposit.btcTx.output[deposit.btcVout]? = some output
  input : Input
  input_eq : Input.new host ⟨deposit.btcTx.txid host, deposit.btcVout⟩ checkpoint.sigset
    (deposit.dest.commitmentBytes host) output.value store.checkpointConfig.sigsetThreshold =
      .ok input
  fee : Nat
  coin : Coin
  after_eq : after = { store.queue with
    checkpoints := older ++
      [((building.collect fee).withInput input).insertPending deposit.dest coin] }

/-- A withdrawal enters the checkpoint under construction. -/
structure Withdrawn (queue after : QueueStore) where
  older : List Checkpoint
  building : Checkpoint
  checkpoints_eq : queue.checkpoints = older ++ [building]
  firstTx_eq : building.firstTx = .ok building.mainTx
  fee : Nat
  output : TxOut
  after_eq : after = { queue with
    checkpoints := older ++ [(building.collect fee).withOutput output] }

/-- The checkpoint under construction with the deposit. -/
def Credited.credited {host : Host} {store : Store} {deposit : Contract.RelayedDeposit}
    {after : QueueStore} (credited : Credited host store deposit after) : Checkpoint :=
  ((credited.building.collect credited.fee).withInput credited.input).insertPending deposit.dest
    credited.coin

/-- The checkpoint under construction with the withdrawal. -/
def Withdrawn.withdrawn {queue after : QueueStore} (withdrawn : Withdrawn queue after) :
    Checkpoint :=
  (withdrawn.building.collect withdrawn.fee).withOutput withdrawn.output

theorem Credited.mainTx_eq {host : Host} {store : Store} {deposit : Contract.RelayedDeposit}
    {after : QueueStore} (credited : Credited host store deposit after) :
    credited.credited.mainTx = { credited.building.mainTx with
      input := credited.building.mainTx.input ++ [credited.input] } :=
  Checkpoint.mainTx_credited credited.firstTx_eq _ _ _ _

theorem Withdrawn.mainTx_eq {queue after : QueueStore} (withdrawn : Withdrawn queue after) :
    withdrawn.withdrawn.mainTx = { withdrawn.building.mainTx with
      output := withdrawn.building.mainTx.output ++ [withdrawn.output] } :=
  Checkpoint.mainTx_withdrawn withdrawn.firstTx_eq _ _

theorem Credited.checkpoints_after {host : Host} {store : Store}
    {deposit : Contract.RelayedDeposit} {after : QueueStore}
    (credited : Credited host store deposit after) :
    after.checkpoints = credited.older ++ [credited.credited] :=
  congrArg QueueStore.checkpoints credited.after_eq

variable {host : Host} {env : Env} {store after : Store}

/-- A relayed deposit is recovered or credited. -/
theorem credited_of_relayDeposit {btcTx : Transaction} {btcHeight btcVout sigsetIndex : Nat}
    {btcProof : PartialMerkleTree} {dest : Dest}
    (relayed : store.relayDeposit host env btcTx btcHeight btcProof btcVout sigsetIndex dest =
      .ok after) :
    after.queue = store.queue ∨
      Nonempty (Credited host store { btcTx, btcVout, sigsetIndex, dest } after.queue) := by
  obtain ⟨output, checkpoint, _, timeout, outputAt, got, -, -, -,
    ⟨recoveryTxs, rfl⟩ | ⟨input, made, credited⟩⟩ := relayDeposit_eq_ok relayed
  · exact Or.inl rfl
  · obtain ⟨older, building, fee, coin, split, ⟨tx, first⟩, -, -, -, rfl⟩ :=
      creditDeposit_eq_ok credited
    have firstTx_eq : building.firstTx = .ok building.mainTx := by
      rw [first, Checkpoint.mainTx_of_firstTx first]
    exact Or.inr ⟨{
      older, building, checkpoint, output, input, coin, firstTx_eq
      checkpoints_eq := split
      get_eq := got
      output_eq := outputAt
      input_eq := made
      fee := fee / store.bitcoinConfig.unitsPerSat
      after_eq := rfl }⟩

theorem withdrawn_of_addWithdrawal {scriptPubkey : Script} {amount : Nat}
    (added : store.addWithdrawal host scriptPubkey amount = .ok after) :
    Nonempty (Withdrawn store.queue after.queue) := by
  obtain ⟨older, building, fee, split, ⟨tx, first⟩, -, -, -, -, rfl⟩ := addWithdrawal_eq_ok added
  have firstTx_eq : building.firstTx = .ok building.mainTx := by
    rw [first, Checkpoint.mainTx_of_firstTx first]
  exact ⟨{ older, building, firstTx_eq, checkpoints_eq := split, after_eq := rfl, .. }⟩

end Store

namespace Contract

/-- The end of a block at which a checkpoint is pushed. -/
def Pushes (host : Host) (store : Store) (call : Call) : Prop :=
  match call.blockHash, store.queue.takePendingCompleted with
  | some hash, .ok (queue, _) =>
      Store.shouldPush host call.env { store with queue } hash (HeaderQueue.height store.headers) =
        .ok true
  | _, _ => False

instance (host : Host) (store : Store) (call : Call) : Decidable (Pushes host store call) := by
  unfold Pushes
  split <;> infer_instance

/-- Every single change that a call makes to the queue preserves a property. -/
structure Preserves (host : Host) (store : Store) (call : Call) (Inv : QueueStore → Prop) :
    Prop where
  credited : ∀ {deposit after}, call.deposit = some deposit →
    Store.Credited host store deposit after → Inv after
  withdrawn : ∀ {queue after : QueueStore}, queue.Shaped → Inv queue →
    Store.Withdrawn queue after → Inv after
  signed : ∀ {signature after}, call.signature = some signature →
    store.queue.sign host signature.xpub signature.sigs signature.cpIndex signature.btcHeight =
      .ok after → Inv after
  confirmed : ∀ {cpIndex checkpoint}, call.confirmation = some cpIndex →
    store.queue.get cpIndex = .ok checkpoint →
      (∀ confIndex ∈ store.queue.confirmedIndex, confIndex < cpIndex) →
        Inv { store.queue with confirmedIndex := some cpIndex }
  paidOut : ∀ {queue index checkpoint}, queue.Shaped → Inv queue →
    queue.get index = .ok checkpoint → Inv (queue.put index checkpoint.paidOut)
  handled : ∀ {queue next}, Inv queue → Inv { queue with firstUnhandledConfirmedIndex := next }
  started : ∀ {before after : Store}, Inv before.queue →
    Store.FirstPush host call.env before after → Inv after.queue
  rolled : ∀ {hash dests unitsPerSat queue} {after : Store}, call.blockHash = some hash →
    store.queue.takePendingCompleted = .ok (queue, dests) →
      Store.shouldPush host call.env { store with queue } hash (HeaderQueue.height store.headers) =
        .ok true →
      queue.Shaped → Inv queue →
        Store.Rollover host call.env hash unitsPerSat { store with queue } after → Inv after.queue

variable {host : Host} {store after : Store} {call : Call} {Inv : QueueStore → Prop}

theorem pushes_iff : Pushes host store call ↔
    ∃ hash queue dests, call.blockHash = some hash ∧
      store.queue.takePendingCompleted = .ok (queue, dests) ∧
      Store.shouldPush host call.env { store with queue } hash (HeaderQueue.height store.headers) =
        .ok true := by
  unfold Pushes
  split
  · rename_i hash queue dests isClock taken
    simp [isClock, taken]
  · rename_i unfinished
    simp only [false_iff, not_exists, not_and]
    intro hash queue dests isClock taken
    exact absurd taken (unfinished hash queue dests isClock)

theorem pushes_of_shouldPush {hash : Bytes} {queue : QueueStore} {dests : Payouts}
    (isClock : call.blockHash = some hash)
    (taken : store.queue.takePendingCompleted = .ok (queue, dests))
    (should : Store.shouldPush host call.env { store with queue } hash
      (HeaderQueue.height store.headers) = .ok true) : Pushes host store call :=
  pushes_iff.mpr ⟨hash, queue, dests, isClock, taken, should⟩

/-- What every single change preserves is preserved by the call. -/
theorem Effect.preserves (effect : Effect host store call after) (shaped : store.queue.Shaped)
    (preserves : Preserves host store call Inv) (holds : Inv store.queue) : Inv after.queue := by
  cases effect with
  | deposit _ _ _ btcTx _ _ btcVout sigsetIndex dest relayed =>
      rcases Store.credited_of_relayDeposit relayed with same | ⟨⟨credited⟩⟩
      · rwa [same]
      · exact preserves.credited rfl credited
  | withdrawal _ _ _ _ _ added =>
      have kept : after.queue.Shaped ∧ Inv after.queue := by
        refine addWithdrawals_invariant (fun current => current.queue.Shaped ∧ Inv current.queue)
          ?_ ⟨shaped, holds⟩ added
        rintro current amount next ⟨currentShaped, currentHolds⟩ addedOne
        obtain ⟨withdrawn⟩ := Store.withdrawn_of_addWithdrawal addedOne
        exact ⟨Store.shaped_addWithdrawal currentShaped addedOne,
          preserves.withdrawn currentShaped currentHolds withdrawn⟩
      exact kept.2
  | signature _ _ _ _ _ _ signed isSignature => exact preserves.signed isSignature signed
  | confirmation _ _ _ _ cpIndex relayed isConfirmation =>
      obtain ⟨⟨checkpoint, got⟩, later, rfl⟩ := Store.relayCheckpoint_eq_ok relayed
      exact preserves.confirmed isConfirmation got later
  | configuration => exact holds
  | @endBlock _ hash queue stepped _ isClock _ env dests taken _ _ _ steppedOk same isEnv isHeight =>
      subst isEnv isHeight
      have kept : queue.Shaped ∧ Inv queue := by
        refine QueueStore.takePendingCompleted_invariant (fun current => current.Shaped ∧ Inv current)
          ?_ ?_ ⟨shaped, holds⟩ taken
        · rintro current index checkpoint ⟨currentShaped, currentHolds⟩ got
          exact ⟨currentShaped.clearPending got, preserves.paidOut currentShaped currentHolds got⟩
        · rintro current next ⟨currentShaped, currentHolds⟩
          exact ⟨currentShaped.withFirstUnhandled next, preserves.handled currentHolds⟩
      rw [same.queue_eq]
      rcases Store.maybeStep_eq_ok steppedOk with ⟨rfl, -⟩ | ⟨⟨first⟩⟩ | ⟨rollover, -⟩
      · exact kept.2
      · exact preserves.started kept.2 first
      · have should := rollover.shouldPush_of_maybeStep steppedOk
        exact preserves.rolled isClock taken should kept.1 kept.2 rollover
  | other _ _ same => rwa [same.queue_eq]

/-- What every single change of a permitted call preserves holds in every
permitted run. -/
theorem run_preserves (Inv : QueueStore → Prop) {permit : Store → Call → Prop}
    (preserves : ∀ store call, store.queue.Shaped → Inv store.queue → permit store call →
      Preserves host store call Inv)
    {start : Store} (shaped : start.queue.Shaped) (holds : Inv start.queue) {calls : List Call}
    (permitted : (machine host).Permitted ((machine host).OnSuccess permit) start calls) :
    ((machine host).run start calls).queue.Shaped ∧ Inv ((machine host).run start calls).queue := by
  refine CallMachine.run_invariant (fun store : Store => store.queue.Shaped ∧ Inv store.queue)
    ?_ ⟨shaped, holds⟩ permitted
  rintro current call next ⟨currentShaped, currentHolds⟩ allowed called
  have effect := effect_of_call called
  exact ⟨effect.shaped currentShaped,
    effect.preserves currentShaped
      (preserves current call currentShaped currentHolds (allowed next called)) currentHolds⟩

end Contract

/-- The checkpoint after a call that signed it. -/
def Checkpoint.completed (checkpoint signed : Checkpoint) : Checkpoint :=
  if checkpoint.status = .signing ∧ signed.signed then { signed with status := .complete }
  else signed

theorem Checkpoint.mainTx_completed (checkpoint signed : Checkpoint) :
    (checkpoint.completed signed).mainTx = signed.mainTx := by
  unfold completed
  split <;> rfl

/-- Signing never reopens a checkpoint. -/
theorem Checkpoint.completed_not_building {host : Host} {checkpoint signed : Checkpoint}
    {xpub : Xpub} {sigs : List Signature} {btcHeight : Nat}
    (notBuilding : checkpoint.status ≠ .building)
    (signedOk : checkpoint.sign host xpub sigs btcHeight = .ok signed) :
    (checkpoint.completed signed).status ≠ .building := by
  unfold completed
  split
  · exact CheckpointStatus.noConfusion
  · rw [(Checkpoint.sign_eq_ok signedOk).2]
    exact notBuilding

namespace QueueStore

/-- Every checkpoint of the queue has the property. -/
def Each (Holds : Checkpoint → Prop) (queue : QueueStore) : Prop :=
  ∀ index checkpoint, queue.window.item index = some checkpoint → Holds checkpoint

variable {Holds : Checkpoint → Prop} {queue after : QueueStore} {index : Nat}
  {checkpoint replacement : Checkpoint} {older : List Checkpoint}

/-- There is no checkpoint in an empty queue. -/
theorem each_of_empty (empty : queue.checkpoints = []) : queue.Each Holds := by
  intro index checkpoint found
  exact absurd found (Window.item_ne_of_empty empty)

theorem each_of_singleton (single : queue.checkpoints = [checkpoint]) (holds : Holds checkpoint) :
    queue.Each Holds := by
  intro index found foundAt
  have member : found ∈ queue.checkpoints := Window.mem_of_item foundAt
  rw [single, List.mem_singleton] at member
  rw [member]
  exact holds

theorem Each.put (each : queue.Each Holds) (found : queue.window.item index = some checkpoint)
    (holds : Holds replacement) : (queue.put index replacement).Each Holds := by
  intro other current currentAt
  rw [window_put, Window.item_put found] at currentAt
  split at currentAt
  · obtain rfl := Option.some.inj currentAt
    exact holds
  · exact each other current currentAt

theorem Each.replaceBuilding (each : queue.Each Holds) (ordered : queue.Ordered)
    (split : queue.checkpoints = older ++ [checkpoint]) (holds : Holds replacement) :
    Each Holds { queue with checkpoints := older ++ [replacement] } := by
  rw [← put_building ordered.aligned split]
  exact each.put (ordered.item_building split) holds

/-- Taking the pending transfers empties those of single checkpoints. -/
theorem Each.takePendingCompleted {dests : Payouts} (each : queue.Each Holds)
    (paidOut : ∀ checkpoint, Holds checkpoint → Holds checkpoint.paidOut)
    (taken : queue.takePendingCompleted = .ok (after, dests)) : after.Each Holds := by
  refine takePendingCompleted_invariant (QueueStore.Each Holds) ?_ (fun _ _ holds => holds) each
    taken
  intro current index checkpoint holds got
  have found := (get_eq_ok.mp got).2
  exact holds.put found (paidOut checkpoint (holds _ _ found))

/-- After a new checkpoint has been started, every checkpoint is it, the frozen one or an
older one. -/
theorem Each.rollover {host : Host} {env : Env} {commitment : Bytes} {unitsPerSat : Nat}
    {store after : Store} (each : store.queue.Each Holds)
    (rollover : Store.Rollover host env commitment unitsPerSat store after)
    (frozen : Holds rollover.frozen) (fresh : Holds rollover.fresh) : after.queue.Each Holds := by
  intro index checkpoint checkpointAt
  rcases rollover.item_after_cases checkpointAt with ⟨-, rfl⟩ | ⟨-, rfl⟩ | ⟨-, oldAt⟩
  · exact fresh
  · exact frozen
  · exact each _ _ oldAt

theorem sign_completed {host : Host} {signature : Contract.CheckpointSignature}
    (signed : queue.sign host signature.xpub signature.sigs signature.cpIndex signature.btcHeight =
      .ok after) :
    ∃ checkpoint signedCheckpoint, queue.window.item signature.cpIndex = some checkpoint ∧
      checkpoint.status ≠ .building ∧
      checkpoint.sign host signature.xpub signature.sigs signature.btcHeight =
        .ok signedCheckpoint ∧
      after = queue.put signature.cpIndex (checkpoint.completed signedCheckpoint) := by
  simp only [sign, Outcome.bind_eq_ok, Outcome.require_eq_ok] at signed
  obtain ⟨checkpoint, got, -, notBuilding, signedCheckpoint, signedOk, wrote⟩ := signed
  obtain ⟨-, -, -, rfl⟩ := set_eq_ok.mp wrote
  exact ⟨checkpoint, signedCheckpoint, (get_eq_ok.mp got).2, notBuilding, signedOk, rfl⟩

end QueueStore

namespace Contract

/-- Every change that a call makes to a single checkpoint preserves a property,
and the checkpoints that it starts have it. -/
structure PreservesEach (host : Host) (store : Store) (call : Call)
    (Holds : Checkpoint → Prop) : Prop where
  credited : ∀ {deposit after} (credited : Store.Credited host store deposit after),
    call.deposit = some deposit → credited.building.Single →
      credited.building.status = .building → credited.checkpoint.sigset.WellFormed →
        Holds credited.building → Holds credited.credited
  withdrawn : ∀ {queue after : QueueStore} (withdrawn : Store.Withdrawn queue after),
    withdrawn.building.Single → withdrawn.building.status = .building →
      Holds withdrawn.building → Holds withdrawn.withdrawn
  signed : ∀ {signature checkpoint signedCheckpoint}, call.signature = some signature →
    checkpoint.Single → checkpoint.status ≠ .building → Holds checkpoint →
      checkpoint.sign host signature.xpub signature.sigs signature.btcHeight =
        .ok signedCheckpoint → Holds (checkpoint.completed signedCheckpoint)
  paidOut : ∀ {checkpoint}, Holds checkpoint → Holds checkpoint.paidOut
  started : ∀ sigset depositsEnabled, Holds { Checkpoint.new sigset with depositsEnabled }
  rolled : ∀ {hash unitsPerSat} {before after : Store}
    (rollover : Store.Rollover host call.env hash unitsPerSat before after),
    rollover.building.Single → rollover.building.status = .building →
      rollover.building.sigset.WellFormed → Holds rollover.building →
        Holds rollover.frozen ∧ Holds rollover.fresh

variable {host : Host} {store : Store} {call : Call} {Holds : Checkpoint → Prop}

theorem PreservesEach.preserves (each : PreservesEach host store call Holds)
    (shaped : store.queue.Shaped) (holds : store.queue.Each Holds) :
    Preserves host store call (QueueStore.Each Holds) where
  credited := by
    intro deposit after isDeposit credited
    have ordered := shaped.ordered_of_split credited.checkpoints_eq
    have found := ordered.item_building credited.checkpoints_eq
    rw [credited.after_eq]
    apply holds.replaceBuilding ordered credited.checkpoints_eq
    exact each.credited credited isDeposit (ordered.single found) (ordered.last found)
      (ordered.wellFormed (QueueStore.get_eq_ok.mp credited.get_eq).2) (holds _ _ found)
  withdrawn := by
    intro queue after queueShaped queueHolds withdrawn
    have ordered := queueShaped.ordered_of_split withdrawn.checkpoints_eq
    have found := ordered.item_building withdrawn.checkpoints_eq
    rw [withdrawn.after_eq]
    apply queueHolds.replaceBuilding ordered withdrawn.checkpoints_eq
    exact each.withdrawn withdrawn (ordered.single found) (ordered.last found)
      (queueHolds _ _ found)
  signed := by
    intro signature after isSignature signed
    obtain ⟨checkpoint, signedCheckpoint, found, notBuilding, signedOk, rfl⟩ :=
      QueueStore.sign_completed signed
    apply holds.put found
    exact each.signed isSignature ((shaped.ordered_of_item found).single found) notBuilding
      (holds _ _ found) signedOk
  confirmed := fun _ _ _ => holds
  paidOut := by
    intro queue index checkpoint _ queueHolds got
    obtain ⟨-, found⟩ := QueueStore.get_eq_ok.mp got
    exact queueHolds.put found (each.paidOut (queueHolds _ _ found))
  handled := fun queueHolds => queueHolds
  started := by
    intro before after _ first
    exact QueueStore.each_of_singleton first.checkpoints_after
      (each.started first.sigset first.depositsEnabled)
  rolled := by
    intro hash dests unitsPerSat queue after _ _ _ queueShaped queueHolds rollover
    have ordered := queueShaped.ordered_of_split rollover.checkpoints_eq
    have found := rollover.item_building
    have kept := each.rolled rollover (ordered.single found) (ordered.last found)
      (ordered.wellFormed found) (queueHolds _ _ found)
    exact queueHolds.rollover rollover kept.1 kept.2

/-- What every permitted call preserves of single checkpoints holds of every
checkpoint in every permitted run. -/
theorem run_each (Holds : Checkpoint → Prop) {permit : Store → Call → Prop}
    (each : ∀ store call, permit store call → PreservesEach host store call Holds)
    {info : MessageInfo} {msg : InstantiateMsg} {calls : List Call}
    (permitted : (machine host).Permitted ((machine host).OnSuccess permit)
      (instantiate host info msg) calls) :
    ((machine host).run (instantiate host info msg) calls).queue.Each Holds := by
  have start : (instantiate host info msg).queue.Each Holds := QueueStore.each_of_empty rfl
  exact (run_preserves (QueueStore.Each Holds) (fun store call shaped holds allowed =>
    (each store call allowed).preserves shaped holds) (.empty rfl rfl) start permitted).2

end Contract

namespace QueueStore

/-- The checkpoint with the index is frozen, and has the property as long as it is kept. -/
structure FrozenWith (index : Nat) (Holds : Checkpoint → Prop) (queue : QueueStore) : Prop where
  frozen : index < queue.buildingIndex
  holds : ∀ checkpoint, queue.window.item index = some checkpoint → Holds checkpoint

variable {Holds : Checkpoint → Prop} {queue : QueueStore} {index other : Nat}
  {checkpoint replacement : Checkpoint} {older : List Checkpoint}

theorem FrozenWith.put (frozenWith : queue.FrozenWith index Holds)
    (found : queue.window.item other = some checkpoint)
    (keeps : Holds checkpoint → Holds replacement) :
    (queue.put other replacement).FrozenWith index Holds := by
  refine ⟨frozenWith.frozen, fun current currentAt => ?_⟩
  rw [window_put, Window.item_put found] at currentAt
  split at currentAt
  · rename_i same
    obtain rfl := Option.some.inj currentAt
    exact keeps (frozenWith.holds checkpoint (same ▸ found))
  · exact frozenWith.holds current currentAt

/-- The checkpoint under construction is not frozenWith. -/
theorem FrozenWith.replaceBuilding (frozenWith : queue.FrozenWith index Holds)
    (aligned : queue.Aligned) (split : queue.checkpoints = older ++ [checkpoint]) :
    FrozenWith index Holds { queue with checkpoints := older ++ [replacement] } := by
  have found : queue.window.item queue.buildingIndex = some checkpoint :=
    Window.item_last aligned.window split
  rw [← put_building aligned split]
  refine ⟨frozenWith.frozen, fun current currentAt => ?_⟩
  rw [window_put, Window.item_put found, if_neg (Nat.ne_of_lt frozenWith.frozen)] at currentAt
  exact frozenWith.holds current currentAt

/-- A checkpoint that is not under construction any more is frozen. -/
theorem Ordered.lt_buildingIndex (ordered : queue.Ordered)
    (found : queue.window.item index = some checkpoint) (notBuilding : checkpoint.status ≠ .building) :
    index < queue.buildingIndex := by
  have upper : index ≤ queue.buildingIndex := Window.le_last_of_item ordered.aligned.window found
  refine upper.lt_of_ne fun same => notBuilding ?_
  rw [same] at found
  exact ordered.last found

end QueueStore

namespace Contract

variable {host : Host} {store : Store} {call : Call} {Holds : Checkpoint → Prop} {index : Nat}

/-- What further signatures and the payout preserve holds on of a frozen checkpoint. -/
theorem preserves_frozenWith (signed : ∀ {signature : CheckpointSignature}
      {checkpoint signedCheckpoint : Checkpoint}, checkpoint.Single → Holds checkpoint →
        checkpoint.sign host signature.xpub signature.sigs signature.btcHeight =
          .ok signedCheckpoint → Holds (checkpoint.completed signedCheckpoint))
    (paidOut : ∀ {checkpoint : Checkpoint}, Holds checkpoint → Holds checkpoint.paidOut)
    (shaped : store.queue.Shaped) (frozenWith : store.queue.FrozenWith index Holds) :
    Preserves host store call (QueueStore.FrozenWith index Holds) where
  credited := by
    intro deposit after _ credited
    rw [credited.after_eq]
    exact frozenWith.replaceBuilding
      (shaped.ordered_of_split credited.checkpoints_eq).aligned credited.checkpoints_eq
  withdrawn := by
    intro queue after queueShaped holds withdrawn
    rw [withdrawn.after_eq]
    exact holds.replaceBuilding
      (queueShaped.ordered_of_split withdrawn.checkpoints_eq).aligned withdrawn.checkpoints_eq
  signed := by
    intro signature after _ signedOk
    obtain ⟨checkpoint, signedCheckpoint, found, -, accepted, rfl⟩ :=
      QueueStore.sign_completed signedOk
    exact frozenWith.put found fun holds =>
      signed ((shaped.ordered_of_item found).single found) holds accepted
  confirmed := fun _ _ _ => ⟨frozenWith.frozen, frozenWith.holds⟩
  paidOut := by
    intro queue other checkpoint _ holds got
    exact holds.put (QueueStore.get_eq_ok.mp got).2 paidOut
  handled := fun holds => ⟨holds.frozen, holds.holds⟩
  started := by
    intro before after holds first
    have impossible := holds.frozen
    rw [first.buildingIndex_eq] at impossible
    exact absurd impossible (Nat.not_lt_zero index)
  rolled := by
    intro hash dests unitsPerSat queue after _ _ _ _ holds rollover
    have frozen : index < queue.buildingIndex := holds.frozen
    refine ⟨?_, fun checkpoint found => ?_⟩
    · rw [rollover.buildingIndex_after]
      exact frozen.trans (Nat.lt_succ_self _)
    · rcases rollover.item_after_cases found with ⟨rfl, -⟩ | ⟨rfl, -⟩ | ⟨-, oldAt⟩
      · exact absurd frozen (Nat.not_lt.mpr (Nat.le_succ _))
      · exact absurd frozen (Nat.lt_irrefl _)
      · exact holds.holds checkpoint oldAt

end Contract

end CwBitcoin
