import CwBitcoin.QueueShape

/-!
# Frozen checkpoints and the chain of reserve outputs

Once a checkpoint is no longer under construction, only its signatures, its
status and its pending transfers change.  Each checkpoint spends the reserve
output of the one before it as its first input.
-/

namespace CwBitcoin

namespace BitcoinTx

/-- The first input of `next` spends the first output of `tx`. -/
structure Reserves (host : Host) (tx next : BitcoinTx) (reserve : TxOut) (input : Input) :
    Prop where
  output_eq : tx.output.head? = some reserve
  input_eq : next.input.head? = some input
  prevout_eq : input.prevout = ⟨host.txHash tx.skeleton, 0⟩
  amount_eq : input.amount = reserve.value
  script_eq : toV0P2wsh host input.redeemScript = reserve.scriptPubkey

/-- The reserve of `tx` is spent by `next`. -/
def Linked (host : Host) (tx next : BitcoinTx) : Prop :=
  ∃ reserve input, Reserves host tx next reserve input

variable {host : Host} {tx next later : BitcoinTx}

/-- Whether two transactions are linked does not depend on signatures, nor on
further inputs. -/
theorem Linked.congr (linked : Linked host tx next) {other : BitcoinTx}
    (sameTx : other.unsigned = tx.unsigned)
    (sameHead : later.unsigned.input.head? = next.unsigned.input.head?) :
    Linked host other later := by
  obtain ⟨reserve, input, reserves⟩ := linked
  have headEq : later.input.head?.map Input.unsigned = some input.unsigned := by
    simp only [unsigned, List.head?_map, reserves.input_eq, Option.map_some] at sameHead
    exact sameHead
  obtain ⟨laterInput, laterHead, sameInput⟩ := Option.map_eq_some_iff.mp headEq
  have field {β : Type} (f : Input → β) (erased : ∀ input, f input.unsigned = f input) :
      f laterInput = f input := by
    rw [← erased, sameInput, erased]
  refine ⟨reserve, laterInput, ?_, laterHead, ?_, ?_, ?_⟩
  · rw [output_congr sameTx, reserves.output_eq]
  · rw [field Input.prevout fun _ => rfl, reserves.prevout_eq, skeleton_congr sameTx]
  · rw [field Input.amount fun _ => rfl, reserves.amount_eq]
  · rw [field Input.redeemScript fun _ => rfl, reserves.script_eq]

end BitcoinTx

namespace QueueStore

/-- Frozen checkpoints of the earlier queue are pruned or kept. -/
structure Later (queue later : QueueStore) : Prop where
  first_le : queue.checkpoints ≠ [] →
    later.checkpoints ≠ [] ∧ queue.window.first ≤ later.window.first
  keeps : ∀ {index checkpoint}, queue.window.item index = some checkpoint →
    checkpoint.status ≠ .building → index < later.window.first ∨
      ∃ kept, later.window.item index = some kept ∧ kept.status ≠ .building ∧
        kept.unsignedTxs = checkpoint.unsignedTxs

/-- Consecutive checkpoints of the queue are linked by reserve outputs. -/
def Chained (host : Host) (queue : QueueStore) : Prop :=
  ∀ index checkpoint next, queue.window.item index = some checkpoint →
    queue.window.item (index + 1) = some next →
      BitcoinTx.Linked host checkpoint.mainTx next.mainTx

variable {host : Host} {queue middle later : QueueStore} {index : Nat}
  {checkpoint replacement : Checkpoint} {older : List Checkpoint}

theorem Later.refl (queue : QueueStore) : Later queue queue :=
  ⟨fun nonempty => ⟨nonempty, le_rfl⟩,
    fun {_ checkpoint} found frozen => Or.inr ⟨checkpoint, found, frozen, rfl⟩⟩

theorem Later.trans (first : Later queue middle) (second : Later middle later) :
    Later queue later := by
  refine ⟨fun nonempty => ?_, fun {index checkpoint} found frozen => ?_⟩
  · obtain ⟨middleNonempty, firstLe⟩ := first.first_le nonempty
    obtain ⟨laterNonempty, secondLe⟩ := second.first_le middleNonempty
    exact ⟨laterNonempty, firstLe.trans secondLe⟩
  · rcases first.keeps found frozen with pruned | ⟨kept, keptAt, stillFrozen, sameTxs⟩
    · have nonempty : queue.checkpoints ≠ [] := List.ne_nil_of_mem (Window.mem_of_item found)
      have secondLe := (second.first_le (first.first_le nonempty).1).2
      exact Or.inl (pruned.trans_le secondLe)
    · rcases second.keeps keptAt stillFrozen with pruned | ⟨last, lastAt, lastFrozen, lastTxs⟩
      · exact Or.inl pruned
      · exact Or.inr ⟨last, lastAt, lastFrozen, lastTxs.trans sameTxs⟩

/-- A replaced checkpoint was under construction, or keeps its transactions. -/
theorem Later.put (found : queue.window.item index = some checkpoint)
    (kept : checkpoint.status ≠ .building →
      replacement.status ≠ .building ∧ replacement.unsignedTxs = checkpoint.unsignedTxs) :
    Later queue (queue.put index replacement) := by
  refine ⟨fun nonempty => ⟨?_, by rw [window_put, Window.first_put]⟩,
    fun {other current} currentAt frozen => Or.inr ?_⟩
  · simpa [QueueStore.put, Window.put, QueueStore.window] using nonempty
  · rw [window_put, Window.item_put found]
    by_cases same : other = index
    · rw [same] at currentAt
      obtain rfl := Option.some.inj (found.symm.trans currentAt)
      rw [if_pos same]
      exact ⟨replacement, rfl, kept frozen⟩
    · rw [if_neg same]
      exact ⟨current, currentAt, frozen, rfl⟩

/-- A replaced checkpoint keeps the links when it keeps its first input, and
its whole transaction unless it is the last one. -/
theorem Chained.put (chained : queue.Chained host) (ordered : queue.Ordered)
    (found : queue.window.item index = some checkpoint)
    (sameHead : ∀ input, checkpoint.mainTx.unsigned.input.head? = some input →
      replacement.mainTx.unsigned.input.head? = some input)
    (sameTx : checkpoint.status ≠ .building →
      replacement.mainTx.unsigned = checkpoint.mainTx.unsigned) :
    (queue.put index replacement).Chained host := by
  intro other current next currentAt nextAt
  rw [window_put, Window.item_put found] at currentAt nextAt
  have linkedBefore {old oldNext : Checkpoint} (oldAt : queue.window.item other = some old)
      (oldNextAt : queue.window.item (other + 1) = some oldNext)
      (oldTx : current.mainTx.unsigned = old.mainTx.unsigned)
      (oldHead : ∀ input, oldNext.mainTx.unsigned.input.head? = some input →
        next.mainTx.unsigned.input.head? = some input) :
      BitcoinTx.Linked host current.mainTx next.mainTx := by
    obtain ⟨reserve, input, reserves⟩ := chained _ _ _ oldAt oldNextAt
    have head : oldNext.mainTx.unsigned.input.head? = some input.unsigned := by
      simp [BitcoinTx.unsigned, List.head?_map, reserves.input_eq]
    exact (chained _ _ _ oldAt oldNextAt).congr oldTx ((oldHead _ head).trans head.symm)
  by_cases isCurrent : other = index
  · rw [if_pos isCurrent] at currentAt
    rw [if_neg (by omega)] at nextAt
    obtain rfl := Option.some.inj currentAt
    subst isCurrent
    have before : other < queue.buildingIndex := Window.le_last_of_item ordered.aligned.window nextAt
    exact linkedBefore found nextAt (sameTx (ordered.frozen found before)) fun _ head => head
  · rw [if_neg isCurrent] at currentAt
    by_cases isNext : other + 1 = index
    · rw [if_pos isNext] at nextAt
      obtain rfl := Option.some.inj nextAt
      rw [← isNext] at found
      exact linkedBefore currentAt found rfl sameHead
    · rw [if_neg isNext] at nextAt
      exact linkedBefore currentAt nextAt rfl fun _ head => head

end QueueStore

namespace Store

variable {host : Host} {env : Env} {store after : Store} {commitment : Bytes} {unitsPerSat : Nat}

/-- A change that keeps frozen checkpoints and links. -/
structure Continues (host : Host) (store after : Store) : Prop where
  config_eq : after.checkpointConfig = store.checkpointConfig
  later : QueueStore.Later store.queue after.queue
  chained : store.queue.Chained host → after.queue.Chained host

namespace Rollover

variable (rollover : Rollover host env commitment unitsPerSat store after)

include rollover in
theorem later (ordered : store.queue.Ordered) : QueueStore.Later store.queue after.queue := by
  refine ⟨fun _ => ⟨by simp [rollover.checkpoints_after], by rw [rollover.first_after]; omega⟩,
    fun {index checkpoint} found frozen => ?_⟩
  have upper : index ≤ store.queue.buildingIndex :=
    Window.le_last_of_item ordered.aligned.window found
  have notLast : index ≠ store.queue.buildingIndex := by
    rintro rfl
    exact frozen (ordered.last found)
  rw [rollover.first_after, rollover.item_after]
  by_cases pruned : index < store.queue.window.first + rollover.pruned
  · exact Or.inl pruned
  · rw [if_neg pruned, if_neg (by omega), if_neg notLast]
    exact Or.inr ⟨checkpoint, found, frozen, rfl⟩

/-- The new checkpoint spends the reserve output of the frozen one. -/
theorem linked : BitcoinTx.Linked host rollover.frozen.mainTx rollover.fresh.mainTx := by
  obtain ⟨redeemScript, redeemed, reserveOutput⟩ := rollover.reserve_eq
  obtain ⟨prevoutEq, amountEq, -, spent, -⟩ := Input.new_eq_ok rollover.reserveInput_eq
  obtain rfl := Except.ok.inj (redeemed.symm.trans spent)
  rw [rollover.mainTx_frozen]
  exact ⟨_, rollover.reserveInput, reserveOutput, rfl, prevoutEq, amountEq, rfl⟩

include rollover in
theorem chained (someInput : 1 ≤ store.checkpointConfig.maxInputs)
    (chained : store.queue.Chained host) : after.queue.Chained host := by
  intro index checkpoint next found nextFound
  rcases rollover.item_after_cases nextFound with ⟨isFresh, rfl⟩ | ⟨isFrozen, rfl⟩ | ⟨before, nextAt⟩
  · rcases rollover.item_after_cases found with ⟨impossible, -⟩ | ⟨-, rfl⟩ | ⟨impossible, -⟩
    · omega
    · exact rollover.linked
    · omega
  · rcases rollover.item_after_cases found with ⟨impossible, -⟩ | ⟨impossible, -⟩ | ⟨-, oldAt⟩
    · omega
    · omega
    · have buildingAt := rollover.item_building
      rw [← isFrozen] at buildingAt
      refine (chained _ _ _ oldAt buildingAt).congr rfl ?_
      rw [rollover.unsigned_frozenTx, List.head?_take, if_neg (by omega)]
  · rcases rollover.item_after_cases found with ⟨impossible, -⟩ | ⟨impossible, -⟩ | ⟨-, oldAt⟩
    · omega
    · omega
    · exact chained _ _ _ oldAt nextAt

end Rollover

end Store

namespace Store

variable {host : Host} {env : Env} {store after : Store}

/-- A change of the checkpoint under construction that keeps the first input. -/
theorem continues_replaceBuilding {older : List Checkpoint} {building replacement : Checkpoint}
    (shaped : store.queue.Shaped) (split : store.queue.checkpoints = older ++ [building])
    (sameHead : ∀ input, building.mainTx.unsigned.input.head? = some input →
      replacement.mainTx.unsigned.input.head? = some input) (feePool : Int) :
    Continues host store { store with
      feePool
      queue := { store.queue with checkpoints := older ++ [replacement] } } := by
  have ordered := shaped.ordered_of_split split
  have found := ordered.item_building split
  have notFrozen : ¬ building.status ≠ .building := not_not.mpr (ordered.last found)
  refine ⟨rfl, ?_, fun chained => ?_⟩
  · rw [← QueueStore.put_building ordered.aligned split]
    exact QueueStore.Later.put found fun frozen => absurd frozen notFrozen
  · rw [← QueueStore.put_building ordered.aligned split]
    exact chained.put ordered found sameHead fun frozen => absurd frozen notFrozen

theorem continues_creditDeposit {input : Input} {feeRate : Nat} {dest : Dest}
    (shaped : store.queue.Shaped)
    (credited : store.creditDeposit input feeRate dest = .ok after) :
    Continues host store after := by
  obtain ⟨older, building, fee, coin, split, ⟨tx, first⟩, -, -, -, rfl⟩ :=
    creditDeposit_eq_ok credited
  refine continues_replaceBuilding shaped split (fun head headEq => ?_) _
  rw [Checkpoint.mainTx_credited first]
  simp only [BitcoinTx.unsigned, List.map_append, List.head?_append, Option.or_eq_some_iff]
  exact Or.inl headEq

theorem continues_relayDeposit {btcTx : Transaction} {btcHeight btcVout sigsetIndex : Nat}
    {btcProof : PartialMerkleTree} {dest : Dest} (shaped : store.queue.Shaped)
    (relayed : store.relayDeposit host env btcTx btcHeight btcProof btcVout sigsetIndex dest =
      .ok after) : Continues host store after := by
  obtain ⟨_, _, _, timeout, -, -, -, -, -, ⟨recoveryTxs, rfl⟩ | ⟨input, -, credited⟩⟩ :=
    relayDeposit_eq_ok relayed
  · exact ⟨rfl, .refl _, id⟩
  · have inserted : (store.insertOutpoint ⟨btcTx.txid host, btcVout⟩ timeout).queue.Shaped := shaped
    obtain ⟨config_eq, later, chained⟩ := continues_creditDeposit inserted credited
    exact ⟨config_eq, later, chained⟩

theorem continues_addWithdrawal {scriptPubkey : Script} {amount : Nat}
    (shaped : store.queue.Shaped)
    (added : store.addWithdrawal host scriptPubkey amount = .ok after) :
    Continues host store after := by
  obtain ⟨older, building, fee, split, ⟨tx, first⟩, -, -, -, -, rfl⟩ := addWithdrawal_eq_ok added
  refine continues_replaceBuilding shaped split (fun head headEq => ?_) _
  rw [Checkpoint.mainTx_withdrawn first]
  exact headEq

theorem continues_maybeStep {commitment : Bytes} {btcHeight : Nat}
    {shouldAllowDeposits pushed : Bool} {parentConfig : BitcoinConfig}
    (shaped : store.queue.Shaped) (someInput : 1 ≤ store.checkpointConfig.maxInputs)
    (stepped : store.maybeStep host env btcHeight shouldAllowDeposits commitment parentConfig =
      .ok (after, pushed)) : Continues host store after := by
  rcases maybeStep_eq_ok stepped with ⟨rfl, -⟩ | ⟨⟨first⟩⟩ | ⟨rollover, -⟩
  · exact ⟨rfl, .refl _, id⟩
  · have config_eq : after.checkpointConfig = store.checkpointConfig := by
      rw [first.after_eq]
    refine ⟨config_eq, ⟨fun nonempty => absurd first.empty nonempty,
      fun {index checkpoint} found _ => ?_⟩, fun _ index _ _ _ nextFound => ?_⟩
    · have member : checkpoint ∈ store.queue.checkpoints := Window.mem_of_item found
      simp [first.empty] at member
    · have nextLe : index + 1 ≤ after.queue.buildingIndex :=
        Window.le_last_of_item first.ordered.aligned.window nextFound
      rw [first.buildingIndex_after] at nextLe
      omega
  · exact ⟨rollover.checkpointConfig_after, rollover.later (shaped.ordered_of_split rollover.checkpoints_eq),
      rollover.chained someInput⟩

end Store

namespace QueueStore

variable {host : Host} {queue after : QueueStore}

/-- Handing out pending transfers changes no transaction. -/
theorem later_takePendingCompleted {dests : Payouts} (shaped : queue.Shaped)
    (taken : queue.takePendingCompleted = .ok (after, dests)) :
    Later queue after ∧ (queue.Chained host → after.Chained host) := by
  have kept : after.Shaped ∧ Later queue after ∧ (queue.Chained host → after.Chained host) := by
    refine takePendingCompleted_invariant (fun current => current.Shaped ∧ Later queue current ∧
      (queue.Chained host → current.Chained host)) ?_ ?_ ⟨shaped, .refl queue, id⟩ taken
    · rintro current index checkpoint ⟨currentShaped, later, chained⟩ got
      obtain ⟨-, found⟩ := get_eq_ok.mp got
      have ordered := currentShaped.ordered_of_item found
      have single : checkpoint.Single := ordered.single found
      refine ⟨.ordered (ordered.put found single rfl (Or.inl rfl)),
        later.trans (Later.put found fun frozen => ⟨frozen, rfl⟩), fun start => ?_⟩
      exact Chained.put (chained start) ordered found (fun _ head => head) fun _ => rfl
    · rintro current next ⟨currentShaped, later, chained⟩
      exact ⟨currentShaped.withFirstUnhandled next, ⟨later.first_le, later.keeps⟩, chained⟩
  exact kept.2

theorem later_sign {xpub : Xpub} {sigs : List Signature} {index btcHeight : Nat}
    (shaped : queue.Shaped)
    (signed : queue.sign host xpub sigs index btcHeight = .ok after) :
    Later queue after ∧ (queue.Chained host → after.Chained host) := by
  obtain ⟨checkpoint, signedCheckpoint, got, -, sameTxs, -, status, rfl⟩ := sign_eq_ok signed
  obtain ⟨-, found⟩ := get_eq_ok.mp got
  have ordered := shaped.ordered_of_item found
  have sameTx := Checkpoint.mainTx_unsigned_congr sameTxs
  refine ⟨Later.put found fun frozen => ⟨?_, sameTxs⟩, fun chained => ?_⟩
  · rcases status with same | complete
    · rwa [same]
    · simp [complete]
  · refine chained.put ordered found (fun input head => ?_) fun _ => sameTx
    rwa [sameTx]

end QueueStore

namespace Contract

/-- The checkpoint configuration that a call sets. -/
def Call.checkpointConfig : Call → Option CheckpointConfig
  | .execute _ _ _ (.updateCheckpointConfig config) => some config
  | _ => none

/-- A configuration that the call sets lets checkpoints have an input. -/
def Call.AllowsInputs (call : Call) : Prop :=
  ∀ config ∈ call.checkpointConfig, 1 ≤ config.maxInputs

instance (call : Call) : Decidable call.AllowsInputs :=
  inferInstanceAs (Decidable (∀ config ∈ call.checkpointConfig, _))

/-- What holds in every state of a run: the shape of the queue, its links, and
the bound on the configuration that keeps them. -/
structure ReserveChain (host : Host) (store : Store) : Prop where
  shaped : store.queue.Shaped
  chained : store.queue.Chained host
  allowsInputs : 1 ≤ store.checkpointConfig.maxInputs

variable {host : Host}

theorem Effect.reserveChain {store after : Store} {call : Call}
    (effect : Effect host store call after) (holds : ReserveChain host store)
    (permitted : call.AllowsInputs) :
    ReserveChain host after ∧ QueueStore.Later store.queue after.queue := by
  have shapedAfter := effect.shaped holds.shaped
  have of_continues (continues : Store.Continues host store after) :
      ReserveChain host after ∧ QueueStore.Later store.queue after.queue :=
    ⟨⟨shapedAfter, continues.chained holds.chained, by
      rw [continues.config_eq]; exact holds.allowsInputs⟩, continues.later⟩
  cases effect with
  | deposit _ _ _ _ _ _ _ _ _ relayed =>
      exact of_continues (Store.continues_relayDeposit holds.shaped relayed)
  | withdrawal _ _ _ _ _ added =>
      refine addWithdrawals_invariant (fun current => ReserveChain host current ∧
        QueueStore.Later store.queue current.queue) ?_ ⟨holds, .refl _⟩ added
      rintro current amount next ⟨currentHolds, later⟩ addedOne
      have continues := Store.continues_addWithdrawal currentHolds.shaped addedOne
      refine ⟨⟨Store.shaped_addWithdrawal currentHolds.shaped addedOne,
        continues.chained currentHolds.chained, ?_⟩, later.trans continues.later⟩
      rw [continues.config_eq]
      exact currentHolds.allowsInputs
  | signature _ _ _ _ _ _ signed =>
      obtain ⟨later, chained⟩ := QueueStore.later_sign holds.shaped signed
      exact of_continues ⟨rfl, later, chained⟩
  | confirmation _ _ _ _ _ relayed =>
      obtain ⟨-, -, rfl⟩ := Store.relayCheckpoint_eq_ok relayed
      have unchanged := QueueStore.Later.refl store.queue
      exact of_continues ⟨rfl, ⟨unchanged.first_le, unchanged.keeps⟩, id⟩
  | configuration _ _ _ config => exact ⟨⟨shapedAfter, holds.chained, permitted config rfl⟩, .refl _⟩
  | @endBlock _ _ queue _ _ _ _ _ _ taken _ _ _ stepped same =>
      obtain ⟨later, chained⟩ := QueueStore.later_takePendingCompleted holds.shaped taken
      have takenShaped : ({ store with queue } : Store).queue.Shaped :=
        holds.shaped.takePendingCompleted taken
      have continues := Store.continues_maybeStep takenShaped holds.allowsInputs stepped
      have sameQueue := same.queue_eq
      refine of_continues ⟨same.checkpointConfig_eq.trans continues.config_eq, ?_, ?_⟩
      · rw [sameQueue]
        exact later.trans continues.later
      · intro start
        rw [sameQueue]
        exact continues.chained (chained start)
  | other _ _ same =>
      refine of_continues ⟨same.checkpointConfig_eq, ?_, ?_⟩
      · rw [same.queue_eq]
        exact .refl _
      · rw [same.queue_eq]
        exact id

theorem reserveChain_instantiate (info : MessageInfo) (msg : InstantiateMsg) :
    ReserveChain host (instantiate host info msg) where
  shaped := .empty rfl rfl
  chained := by
    intro index checkpoint next found _
    exact absurd found (Window.item_ne_of_empty rfl)
  allowsInputs := Nat.le_of_ble_eq_true rfl

theorem run_reserveChain (info : MessageInfo) (msg : InstantiateMsg) (calls : List Call)
    (permitted : ∀ call ∈ calls, call.AllowsInputs) :
    ReserveChain host ((machine host).run (instantiate host info msg) calls) :=
  CallMachine.run_invariant (ReserveChain host)
    (fun _ _ _ holds allowed called => ((effect_of_call called).reserveChain holds allowed).1)
    (reserveChain_instantiate info msg) (CallMachine.permitted_of_forall permitted _)

/-- What was frozen at some time of a run is pruned or kept at every later time. -/
theorem run_later {start : Store} (holds : ReserveChain host start) (calls : List Call)
    (permitted : ∀ call ∈ calls, call.AllowsInputs) :
    QueueStore.Later start.queue ((machine host).run start calls).queue := by
  have kept : ReserveChain host ((machine host).run start calls) ∧
      QueueStore.Later start.queue ((machine host).run start calls).queue := by
    refine CallMachine.run_invariant (fun current => ReserveChain host current ∧
      QueueStore.Later start.queue current.queue) ?_ ⟨holds, .refl _⟩
      (CallMachine.permitted_of_forall permitted start)
    rintro current call next ⟨currentHolds, later⟩ allowed called
    obtain ⟨nextHolds, nextLater⟩ := (effect_of_call called).reserveChain currentHolds allowed
    exact ⟨nextHolds, later.trans nextLater⟩
  exact kept.2

end Contract

namespace Checkpoint

/-- Two versions of a checkpoint have the same transaction, up to signatures. -/
structure SameTransaction (host : Host) (early late : Checkpoint) : Prop where
  lockTime_eq : late.mainTx.lockTime = early.mainTx.lockTime
  output_eq : late.mainTx.output = early.mainTx.output
  input_eq : (late.mainTx.input.map fun input => (input.prevout, input.amount, input.redeemScript)) =
    early.mainTx.input.map fun input => (input.prevout, input.amount, input.redeemScript)
  txid_eq : ∀ earlyTxid lateTxid, early.mainTx.txid host = .ok earlyTxid →
    late.mainTx.txid host = .ok lateTxid → lateTxid = earlyTxid

theorem sameTransaction (host : Host) {early late : Checkpoint}
    (sameTxs : late.unsignedTxs = early.unsignedTxs) : SameTransaction host early late := by
  have same := mainTx_unsigned_congr sameTxs
  refine ⟨?_, BitcoinTx.output_congr same, ?_, ?_⟩
  · rw [← BitcoinTx.unsigned_lockTime, same, BitcoinTx.unsigned_lockTime]
  · have erased (tx : BitcoinTx) : (tx.unsigned.input.map fun input =>
        (input.prevout, input.amount, input.redeemScript)) =
          tx.input.map fun input => (input.prevout, input.amount, input.redeemScript) :=
      BitcoinTx.map_unsigned_input _ fun _ => rfl
    rw [← erased, same, erased]
  · intro earlyTxid lateTxid earlyOk lateOk
    rw [BitcoinTx.txid_eq earlyOk, BitcoinTx.txid_eq lateOk, BitcoinTx.skeleton_congr same]

end Checkpoint

/-- A checkpoint that has left construction keeps its transaction for the rest
of every run, and each checkpoint of the queue spends the reserve output of
the one before it. -/
theorem Contract.run_frozen_and_linked (host : Host) (info : MessageInfo) (msg : InstantiateMsg)
    (calls more : List Call) (permitted : ∀ call ∈ calls ++ more, call.AllowsInputs) :
    (∀ index early late,
      ((machine host).run (instantiate host info msg) calls).queue.get index = .ok early →
      early.status ≠ .building →
      ((machine host).run (instantiate host info msg) (calls ++ more)).queue.get index = .ok late →
        late.status ≠ .building ∧ early.firstTx = .ok early.mainTx ∧
          late.firstTx = .ok late.mainTx ∧ Checkpoint.SameTransaction host early late) ∧
    ∀ index checkpoint next,
      ((machine host).run (instantiate host info msg) calls).queue.get index = .ok checkpoint →
      ((machine host).run (instantiate host info msg) calls).queue.get (index + 1) = .ok next →
        checkpoint.firstTx = .ok checkpoint.mainTx ∧ next.firstTx = .ok next.mainTx ∧
          BitcoinTx.Linked host checkpoint.mainTx next.mainTx ∧
          ∀ txid, checkpoint.mainTx.txid host = .ok txid →
            next.mainTx.prevouts.head? = some ⟨txid, 0⟩ := by
  have holds : ReserveChain host _ := run_reserveChain info msg calls
    fun call member => permitted call (List.mem_append_left more member)
  have laterHolds : ReserveChain host _ := run_reserveChain info msg (calls ++ more) permitted
  refine ⟨fun index early late gotEarly frozen gotLate => ?_,
    fun index checkpoint next got gotNext => ?_⟩
  · obtain ⟨-, earlyAt⟩ := QueueStore.get_eq_ok.mp gotEarly
    obtain ⟨-, lateAt⟩ := QueueStore.get_eq_ok.mp gotLate
    have later := run_later holds more
      fun call member => permitted call (List.mem_append_right calls member)
    rw [← CallMachine.run_append] at later
    rcases later.keeps earlyAt frozen with pruned | ⟨kept, keptAt, stillFrozen, sameTxs⟩
    · have present := Window.first_le_of_item lateAt
      omega
    · obtain rfl := Option.some.inj (keptAt.symm.trans lateAt)
      have earlySingle : early.Single := (holds.shaped.ordered_of_item earlyAt).single earlyAt
      exact ⟨stillFrozen, earlySingle.firstTx, (earlySingle.congr sameTxs).firstTx,
        Checkpoint.sameTransaction host sameTxs⟩
  · obtain ⟨-, found⟩ := QueueStore.get_eq_ok.mp got
    obtain ⟨-, nextFound⟩ := QueueStore.get_eq_ok.mp gotNext
    have ordered := holds.shaped.ordered_of_item found
    have single : checkpoint.Single := ordered.single found
    have nextSingle : next.Single := ordered.single nextFound
    have linked := holds.chained _ _ _ found nextFound
    refine ⟨single.firstTx, nextSingle.firstTx, linked, fun txid identified => ?_⟩
    obtain ⟨reserve, input, reserves⟩ := linked
    rw [BitcoinTx.txid_eq identified, BitcoinTx.prevouts, List.head?_map, reserves.input_eq,
      Option.map_some, reserves.prevout_eq]

/-- The first checkpoint while it waits for signatures, and once it is
complete. -/
theorem Contract.run_frozen_and_linked_sample :
    let frozen := (machine Sample.host).run Sample.initial Sample.setupCalls
    let signed := (machine Sample.host).run Sample.initial (Sample.setupCalls ++ [Sample.signFirst])
    (Sample.checkpointAt signed 0).status = .complete ∧
      Checkpoint.SameTransaction Sample.host (Sample.checkpointAt frozen 0)
        (Sample.checkpointAt signed 0) ∧
      BitcoinTx.Linked Sample.host (Sample.checkpointAt frozen 0).mainTx
        (Sample.checkpointAt frozen 1).mainTx := by
  intro frozen signed
  have result := run_frozen_and_linked Sample.host Sample.info Sample.instantiateMsg
    Sample.setupCalls [Sample.signFirst] (by decide +kernel)
  have first : frozen.queue.get 0 = .ok (Sample.checkpointAt frozen 0) := by decide +kernel
  have second : frozen.queue.get 1 = .ok (Sample.checkpointAt frozen 1) := by decide +kernel
  have later : signed.queue.get 0 = .ok (Sample.checkpointAt signed 0) := by decide +kernel
  have kept := result.1 0 _ _ first (by decide +kernel) later
  have link := result.2 0 _ _ first second
  exact ⟨by decide +kernel, kept.2.2.2, link.2.2.1⟩

end CwBitcoin
